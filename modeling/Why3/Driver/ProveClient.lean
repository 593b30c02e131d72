import Mathlib.Data.List.TakeWhile
import Why3.Core.NumberText

/-!
# The lines that the server sends

After `read_lines` of `src/driver/prove_client.ml`, with `rev_split` of `src/util/strings.ml`. What
the server sends arrives in pieces. Lines are returned when they are complete, and the beginning of
a line is kept in a buffer for a later call.

A client has the results that reading the socket will give; an empty one says that there is nothing
to read. After these a read that may block waits.
-/

namespace Why3.ProveClient

open List

/-- The reverse of the parts between the separators, in front of `acc`. -/
def revSplit (c : Char) (acc : List Text) (s : Text) : List Text :=
  match _h : s.dropWhile (· ≠ c) with
  | [] => s :: acc
  | _ :: rest => revSplit c (s.takeWhile (· ≠ c) :: acc) rest
termination_by s.length
decreasing_by
  have := (dropWhile_sublist (l := s) (· ≠ c)).length_le
  simp only [_h, length_cons] at this
  omega

structure Client where
  recvBuf : Text
  reads : List Text

inductive Answer where
  | lines (l : List Text)
  | waits
  | assertFailure

/-- The lines of a string with a newline, and what goes to the buffer. -/
def splitLines (s : Text) : Answer × Text :=
  match revSplit '\n' [] s with
  | [] => (.assertFailure, [])
  | [x] => (.lines [x], [])
  | x :: xs =>
    if x = [] then (.lines xs.reverse, [])
    else if x.getLast? = some '\n' then (.lines (x :: xs).reverse, [])
    else (.lines xs.reverse, x)

def readLines (blocking : Bool) (recvBuf : Text) : List Text → Answer × Client
  | [] => (if blocking then .waits else .lines [], ⟨recvBuf, []⟩)
  | s :: reads =>
    if s = [] then (.lines [], ⟨recvBuf, reads⟩)
    else if '\n' ∈ s then
      let r := splitLines (recvBuf ++ s)
      (r.1, ⟨r.2, reads⟩)
    else readLines blocking (recvBuf ++ s) reads

/-- Successive calls, each one blocking or not: the lines that they return, and the client
afterwards. There is no result when an assertion fails. -/
def runCalls : List Bool → Client → Option (List Text × Client)
  | [], c => some ([], c)
  | blocking :: calls, c =>
    match readLines blocking c.recvBuf c.reads with
    | (.lines l, c) => (runCalls calls c).map fun r => (l ++ r.1, r.2)
    | (.waits, c) => some ([], c)
    | (.assertFailure, _) => none

/-! ## Complete lines -/

def completeLines : Text → List Text × Text
  | [] => ([], [])
  | c :: s =>
    match completeLines s with
    | (l, rest) =>
      if c = '\n' then ([] :: l, rest)
      else match l with
        | [] => ([], c :: rest)
        | x :: l => ((c :: x) :: l, rest)

variable {s rest t : Text} {l : List Text}

theorem completeLines_line (h : '\n' ∉ s) (t : Text) : completeLines (s ++ '\n' :: t) =
    (s :: (completeLines t).1, (completeLines t).2) := by
  induction s with
  | nil => simp [completeLines]
  | cons c s ih =>
    rw [mem_cons, not_or] at h
    simp [completeLines, ih h.2, Ne.symm h.1]

theorem completeLines_rest (h : '\n' ∉ s) : completeLines s = ([], s) := by
  induction s with
  | nil => rfl
  | cons c s ih =>
    rw [mem_cons, not_or] at h
    simp [completeLines, ih h.2, Ne.symm h.1]

theorem completeLines_induction {P : Text → Prop} (hrest : ∀ s, '\n' ∉ s → P s)
    (hline : ∀ s t, '\n' ∉ s → P t → P (s ++ '\n' :: t)) (s : Text) : P s := by
  induction hn : s.length using Nat.strong_induction_on generalizing s with
  | _ n ih =>
    by_cases hs : '\n' ∈ s
    · obtain ⟨u, t, rfl, hu⟩ := eq_append_cons_of_mem hs
      refine hline u t hu (ih t.length ?_ t rfl)
      rw [← hn, length_append, length_cons]
      omega
    · exact hrest s hs

theorem completeLines_append (s t : Text) : completeLines (s ++ t) =
    ((completeLines s).1 ++ (completeLines ((completeLines s).2 ++ t)).1,
      (completeLines ((completeLines s).2 ++ t)).2) := by
  induction s using completeLines_induction with
  | hrest s h => rw [completeLines_rest h, nil_append]
  | hline u s h ih => rw [append_assoc, cons_append, completeLines_line h, completeLines_line h, ih,
      cons_append]

theorem revSplit_eq (acc : List Text) (s : Text) : revSplit '\n' acc s =
    (completeLines s).2 :: ((completeLines s).1.reverse ++ acc) := by
  have hall : ∀ u : Text, '\n' ∉ u → ∀ c ∈ u, decide (c ≠ '\n') = true := fun u hu c hc =>
    decide_eq_true fun h => hu (h ▸ hc)
  induction s using completeLines_induction generalizing acc with
  | hrest s h =>
    have hdrop : s.dropWhile (· ≠ '\n') = [] := dropWhile_eq_nil_iff.mpr (hall s h)
    rw [completeLines_rest h, revSplit]
    split
    · rfl
    · next hcons => exact absurd (hdrop.symm.trans hcons) (by simp)
  | hline u s h ih =>
    have hdrop : (u ++ '\n' :: s).dropWhile (· ≠ '\n') = '\n' :: s := by
      rw [dropWhile_append_of_pos (hall u h), dropWhile_cons_of_neg (by simp)]
    have htake : (u ++ '\n' :: s).takeWhile (· ≠ '\n') = u := by
      rw [takeWhile_append_of_pos (hall u h), takeWhile_cons_of_neg (by simp), append_nil]
    rw [completeLines_line h, revSplit]
    split
    · next hnil => exact absurd (hdrop.symm.trans hnil) (by simp)
    · next hcons =>
        obtain ⟨rfl, rfl⟩ := List.cons.inj (hdrop.symm.trans hcons)
        rw [ih, htake, reverse_cons, append_assoc, singleton_append]

theorem completeLines_ne_nil (h : '\n' ∈ s) : (completeLines s).1 ≠ [] := by
  obtain ⟨u, t, rfl, hu⟩ := eq_append_cons_of_mem h
  rw [completeLines_line hu]
  exact cons_ne_nil _ _

theorem newline_notMem_rest (s : Text) : '\n' ∉ (completeLines s).2 := by
  induction s using completeLines_induction with
  | hrest s h => rwa [completeLines_rest h]
  | hline u s h ih => rwa [completeLines_line h]

theorem splitLines_eq (h : '\n' ∈ s) :
    splitLines s = (.lines (completeLines s).1, (completeLines s).2) := by
  have hlast : (completeLines s).2.getLast? ≠ some '\n' := fun hlast =>
    newline_notMem_rest s (mem_of_getLast? hlast)
  have hne : (completeLines s).1.reverse ≠ [] := by simpa using completeLines_ne_nil h
  obtain ⟨x, xs, hx⟩ := exists_cons_of_ne_nil hne
  have hrev : (completeLines s).1 = (x :: xs).reverse := by rw [← hx, reverse_reverse]
  rw [splitLines, revSplit_eq, append_nil, hx]
  dsimp only
  split_ifs with hnil
  · rw [hrev, hnil]
  · rw [hrev]

/-! ## Calls -/

def Answer.returned : Answer → Option (List Text)
  | .lines l => some l
  | .waits => some []
  | .assertFailure => none

/-- A call returns the lines that are complete with what it has received, and keeps the rest. It
receives something if there is something left, and everything if it waits. -/
theorem readLines_spec (blocking : Bool) {buf : Text} (hbuf : '\n' ∉ buf) (reads : List Text) :
    ∃ received, reads = received ++ (readLines blocking buf reads).2.reads ∧
      (reads ≠ [] → received ≠ []) ∧
      ((readLines blocking buf reads).1 = .waits → (readLines blocking buf reads).2.reads = []) ∧
      (readLines blocking buf reads).1.returned =
        some (completeLines (buf ++ received.flatten)).1 ∧
      (readLines blocking buf reads).2.recvBuf = (completeLines (buf ++ received.flatten)).2 := by
  induction reads generalizing buf with
  | nil =>
    refine ⟨[], rfl, id, fun _ => rfl, ?_, ?_⟩
    · rw [flatten_nil, append_nil, completeLines_rest hbuf]
      cases blocking <;> rfl
    · rw [flatten_nil, append_nil, completeLines_rest hbuf]
      rfl
  | cons s reads ih =>
    rw [readLines]
    split_ifs with hnil hmem
    · refine ⟨[s], rfl, by simp, by simp, ?_⟩
      rw [hnil, flatten_singleton, append_nil, completeLines_rest hbuf]
      exact ⟨rfl, rfl⟩
    · refine ⟨[s], rfl, by simp, ?_⟩
      rw [flatten_singleton, splitLines_eq (mem_append_right buf hmem)]
      exact ⟨by simp, rfl, rfl⟩
    · have hbuf' : '\n' ∉ buf ++ s := by simp [hbuf, hmem]
      obtain ⟨received, hreads, -, hwaits, hlines, hrest⟩ := ih hbuf'
      refine ⟨s :: received, by rw [cons_append, ← hreads], by simp, hwaits, ?_⟩
      rw [flatten_cons, ← append_assoc]
      exact ⟨hlines, hrest⟩

/-- What calls return depends on what they have received, not on how it was cut. Every call
receives something as long as there is something left. -/
theorem runCalls_spec (calls : List Bool) {c : Client} (hbuf : '\n' ∉ c.recvBuf) :
    ∃ received l c', runCalls calls c = some (l, c') ∧ c.reads = received ++ c'.reads ∧
      min calls.length c.reads.length ≤ received.length ∧
      completeLines (c.recvBuf ++ received.flatten) = (l, c'.recvBuf) := by
  induction calls generalizing c with
  | nil => exact ⟨[], [], c, rfl, rfl, by simp, by simp [completeLines_rest hbuf]⟩
  | cons blocking calls ih =>
    obtain ⟨received, hreads, hne, hwaits, hlines, hrest⟩ :=
      readLines_spec blocking hbuf c.reads
    rw [runCalls]
    generalize readLines blocking c.recvBuf c.reads = r at hreads hwaits hlines hrest
    obtain ⟨answer, c₁⟩ := r
    have hbuf₁ : '\n' ∉ c₁.recvBuf := by
      rw [hrest]
      exact newline_notMem_rest _
    have hlen : c.reads.length = received.length + c₁.reads.length := by
      rw [hreads, length_append]
    cases answer with
    | assertFailure => cases hlines
    | waits =>
      refine ⟨received, [], c₁, rfl, hreads, ?_, Prod.ext ?_ hrest.symm⟩
      · rw [hlen, hwaits rfl, length_nil]
        omega
      · exact (Option.some.inj hlines).symm
    | lines l =>
      obtain ⟨received', l', c', hrun, hreads', hmin, hlines'⟩ := ih hbuf₁
      refine ⟨received ++ received', l ++ l', c', by simp [hrun], ?_, ?_, ?_⟩
      · rw [append_assoc, ← hreads']
        exact hreads
      · have hpos : c.reads.length ≠ 0 → received.length ≠ 0 := by
          rw [Ne, Ne, length_eq_zero_iff, length_eq_zero_iff]
          exact hne
        rw [length_append, length_cons]
        omega
      · rw [flatten_append, ← append_assoc, completeLines_append, ← hrest, hlines',
          ← Option.some.inj hlines]

/-- From the beginning of a connection on, calls return the complete lines of what was received, in
whatever pieces and in whatever modes, and keep the rest. Each call receives something as long as
there is something left, so that as many calls as there are pieces return all the lines. Two clients
that have received the same have returned the same lines. -/
theorem runCalls_lines (calls : List Bool) (reads : List Text) :
    (∃ received l c, runCalls calls ⟨[], reads⟩ = some (l, c) ∧ reads = received ++ c.reads ∧
      min calls.length reads.length ≤ received.length ∧
      completeLines received.flatten = (l, c.recvBuf)) ∧
    (reads.length ≤ calls.length → runCalls calls ⟨[], reads⟩ =
      some ((completeLines reads.flatten).1, ⟨(completeLines reads.flatten).2, []⟩)) ∧
    ∀ calls' reads' l l' buf buf', reads.flatten = reads'.flatten →
      runCalls calls ⟨[], reads⟩ = some (l, ⟨buf, []⟩) →
      runCalls calls' ⟨[], reads'⟩ = some (l', ⟨buf', []⟩) → l = l' ∧ buf = buf' := by
  have hspec : ∀ calls reads, ∃ received l c, runCalls calls ⟨[], reads⟩ = some (l, c) ∧
      reads = received ++ c.reads ∧ min calls.length reads.length ≤ received.length ∧
      completeLines received.flatten = (l, c.recvBuf) := fun calls reads => by
    simpa using runCalls_spec calls (c := ⟨[], reads⟩) (by simp)
  refine ⟨hspec calls reads, fun hle => ?_, ?_⟩
  · obtain ⟨received, l, ⟨buf, left⟩, hrun, hreads, hmin, hlines⟩ := hspec calls reads
    have hlen : reads.length = received.length + left.length := by rw [hreads, length_append]
    have hleft : left = [] := length_eq_zero_iff.mp (by omega)
    rw [hleft, append_nil] at hreads
    rw [hrun, hreads, hlines, hleft]
  have hall : ∀ calls reads l buf, runCalls calls ⟨[], reads⟩ = some (l, ⟨buf, []⟩) →
      completeLines reads.flatten = (l, buf) := by
    intro calls reads l buf hrun
    obtain ⟨received, l₁, c, hrun₁, hreads, -, hlines⟩ := hspec calls reads
    cases hrun.symm.trans hrun₁
    have hreads : reads = received := by simpa using hreads
    simpa [hreads] using hlines
  intro calls' reads' l l' buf buf' hflat hrun hrun'
  have hlines := hall calls reads l buf hrun
  rw [hflat, hall calls' reads' l' buf' hrun'] at hlines
  exact ⟨(congrArg Prod.fst hlines).symm, (congrArg Prod.snd hlines).symm⟩

end Why3.ProveClient

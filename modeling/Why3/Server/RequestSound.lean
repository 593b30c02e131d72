import Mathlib.Data.List.TakeWhile
import Why3.Server.Request

/-!
# Requests reach the server unchanged

The fields of a line are what is between its semicolons. The first line of a request is always
read as a request of the same kind, with the fields up to the first end of line in its strings.
So the server reads what the client sent if and only if the strings contain no separators and
the limits fit, whatever the pieces in which the characters arrive.
-/

namespace Why3

open List

variable {c : Char} {args fs : List Text} {buf id kind s t : Text} {n : ℕ}
variable {useStdin : Option Text} {r : Request} {f x : Text} {memlimit pos timelimit : ℕ}

/-! ## Fields of a line -/

theorem takeWhile_dropWhile_cases {α : Type} [DecidableEq α] (a : α) (l : List α) :
    (a ∉ l ∧ l.takeWhile (· ≠ a) = l) ∨
      ∃ r, l = l.takeWhile (· ≠ a) ++ a :: r ∧ a ∉ l.takeWhile (· ≠ a) := by
  have hnot : a ∉ l.takeWhile (· ≠ a) := fun h => by simpa using mem_takeWhile_imp h
  have heq := takeWhile_append_dropWhile (p := (· ≠ a)) (l := l)
  cases hd : l.dropWhile (· ≠ a) with
  | nil =>
    rw [hd, append_nil] at heq
    exact .inl ⟨heq ▸ hnot, heq⟩
  | cons b r =>
    obtain rfl : b = a := by
      have := head?_dropWhile_not (· ≠ a) l
      rw [hd] at this
      simpa using this
    rw [hd] at heq
    exact .inr ⟨r, heq.symm, hnot⟩

def FieldsAt (buf : Text) (pos : ℕ) (fs : List Text) : Prop :=
  pos ≤ buf.length ∧ (buf.drop pos).splitOn ';' = fs

theorem copyUpToSemicolon_next (hfs : fs ≠ []) (h : FieldsAt buf pos (f :: fs)) :
    copyUpToSemicolon buf pos = (cString f, pos + f.length + 1) ∧
      FieldsAt buf (pos + f.length + 1) fs := by
  obtain ⟨hpos, hsplit⟩ := h
  rcases takeWhile_dropWhile_cases ';' (buf.drop pos) with ⟨hnot, _⟩ | ⟨r, heq, hnot⟩
  · rw [splitOn_eq_singleton hnot] at hsplit
    cases hsplit
    exact absurd rfl hfs
  · rw [heq, splitOn_append_cons_self_of_not_mem hnot, cons.injEq] at hsplit
    obtain ⟨hf, rfl⟩ := hsplit
    rw [hf] at heq
    have hlen : buf.length - pos = f.length + (r.length + 1) := by
      rw [← length_drop, heq, length_append, length_cons]
    refine ⟨?_, by omega, ?_⟩
    · rw [copyUpToSemicolon, hf, if_neg (by omega)]
    · rw [Nat.add_assoc, ← drop_drop, heq, ← drop_drop, drop_left]
      rfl

theorem copyUpToSemicolon_last (h : FieldsAt buf pos [f]) :
    (copyUpToSemicolon buf pos).1 = cString f := by
  obtain ⟨hpos, hsplit⟩ := h
  rcases takeWhile_dropWhile_cases ';' (buf.drop pos) with ⟨hnot, htake⟩ | ⟨r, heq, hnot⟩
  · rw [splitOn_eq_singleton hnot] at hsplit
    cases hsplit
    rw [copyUpToSemicolon, htake]
  · rw [heq, splitOn_append_cons_self_of_not_mem hnot, cons.injEq] at hsplit
    exact absurd hsplit.2 (splitOn_ne_nil _ _)

theorem copyArgs_spec : ∀ {fs : List Text} {pos : ℕ}, FieldsAt buf pos fs →
    copyArgs buf fs.length pos = fs.map cString
  | [], _, _ => rfl
  | [f], pos, h => by
    rw [map_singleton, ← copyUpToSemicolon_last h]
    rfl
  | f :: f' :: fs, pos, h => by
    obtain ⟨hcopy, hnext⟩ := copyUpToSemicolon_next (cons_ne_nil f' fs) h
    rw [length_cons, copyArgs, hcopy, map_cons, ← copyArgs_spec hnext]

theorem length_splitOn (buf : Text) : (buf.splitOn ';').length = countSemicolons buf + 1 := by
  induction buf with
  | nil => rfl
  | cons c buf ih =>
    rw [splitOn_cons_eq_if_modifyHead, countSemicolons, count_cons]
    split <;> simp [ih, countSemicolons]

/-! ## Lines of requests -/

theorem strncmp_iff : strncmp s t (s.length + 1) = true ↔ s = t := by
  rw [strncmp, decide_eq_true_iff, take_of_length_le (Nat.le_succ _)]
  constructor
  · intro h
    have hlen := congrArg List.length h
    rw [length_take] at hlen
    rw [h, take_of_length_le (by omega)]
  · rintro rfl
    exact (take_of_length_le (Nat.le_succ _)).symm

theorem parseRun_spec {m cmd : Text} (key : ℕ)
    (h : FieldsAt buf 0 (kind :: id :: t :: m :: cmd :: args))
    (hkind : kind = "run".toList ∨ kind = "runstdin".toList) :
    parseRun buf key args.length = some (.run key (cString id) (atoi (cString t))
      (atoi (cString m) % 2 ^ 32).toNat (decide (kind = "runstdin".toList)) (cString cmd)
      (args.map cString)) := by
  obtain ⟨hkindEq, h⟩ := copyUpToSemicolon_next (cons_ne_nil _ _) h
  obtain ⟨hid, h⟩ := copyUpToSemicolon_next (cons_ne_nil _ _) h
  obtain ⟨ht, h⟩ := copyUpToSemicolon_next (cons_ne_nil _ _) h
  obtain ⟨hm, h⟩ := copyUpToSemicolon_next (cons_ne_nil _ _) h
  have hkind' : cString kind = kind := by
    rcases hkind with rfl | rfl <;> rfl
  have hrun : ∀ s : Text, strncmp (cString kind) s (0 + kind.length + 1) = decide (kind = s) := by
    intro s
    rw [hkind', Nat.zero_add, Bool.eq_iff_iff, strncmp_iff, decide_eq_true_iff]
  have hrest : (copyUpToSemicolon buf (0 + kind.length + 1 + id.length + 1 + t.length + 1 +
        m.length + 1)).1 = cString cmd ∧
      copyArgs buf args.length (copyUpToSemicolon buf (0 + kind.length + 1 + id.length + 1 +
        t.length + 1 + m.length + 1)).2 = args.map cString := by
    cases args with
    | nil => exact ⟨copyUpToSemicolon_last h, rfl⟩
    | cons arg args =>
      obtain ⟨hcmd, h⟩ := copyUpToSemicolon_next (cons_ne_nil _ _) h
      rw [hcmd]
      exact ⟨rfl, copyArgs_spec h⟩
  rw [parseRun, hkindEq]
  simp only [hrun, hid, ht, hm, hrest]
  rcases hkind with rfl | rfl
  · rfl
  · rfl

theorem parseCommand_interrupt (parallel : ℤ) (key : ℕ)
    (h : FieldsAt buf 0 ["interrupt".toList, id]) :
    parseCommand parallel buf key = (parallel, some (.interrupt key (cString id))) := by
  obtain ⟨hkind, h⟩ := copyUpToSemicolon_next (cons_ne_nil _ _) h
  rw [parseCommand, hkind, ← copyUpToSemicolon_last h]
  rfl

theorem fieldsAt_zero (h : buf.splitOn ';' = fs) : FieldsAt buf 0 fs :=
  ⟨Nat.zero_le _, by rwa [drop_zero]⟩

theorem parseRequest_run {m cmd : Text} (parallel : ℤ) (key : ℕ)
    (h : buf.splitOn ';' = kind :: id :: t :: m :: cmd :: args)
    (hkind : kind = "run".toList ∨ kind = "runstdin".toList) :
    parseRequest parallel buf key = (parallel, some (.run key (cString id) (atoi (cString t))
      (atoi (cString m) % 2 ^ 32).toNat (decide (kind = "runstdin".toList)) (cString cmd)
      (args.map cString))) := by
  have hcount : countSemicolons buf = args.length + 4 := by
    have := length_splitOn buf
    rw [h] at this
    simpa using this.symm
  rw [parseRequest, hcount, if_neg (by omega), if_neg (by omega), if_neg (by omega),
    Nat.add_sub_cancel, parseRun_spec key (fieldsAt_zero h) hkind]

theorem parseRequest_interrupt (parallel : ℤ) (key : ℕ)
    (h : buf.splitOn ';' = ["interrupt".toList, id]) :
    parseRequest parallel buf key = (parallel, some (.interrupt key (cString id))) := by
  have hcount : countSemicolons buf = 1 := by
    have := length_splitOn buf
    rw [h] at this
    simpa using this.symm
  rw [parseRequest, hcount]
  exact parseCommand_interrupt parallel key (fieldsAt_zero h)

/-! ## Numbers -/

theorem isDec_of_digitIn {v : ℕ} (h : digitIn 10 c = some v) : isDec c = true := by
  rw [digitIn, Option.filter_eq_some_iff] at h
  obtain ⟨hv, hlt⟩ := h
  unfold digitOf at hv
  split at hv
  · next hc => simpa [isDec] using hc
  · split at hv
    · next hc =>
        cases hv
        have hle : 'A'.toNat ≤ c.toNat := UInt32.le_iff_toNat_le.mp hc.1
        simp only [decide_eq_true_eq] at hlt
        omega
    · split at hv
      · next hc =>
          cases hv
          have hle : 'a'.toNat ≤ c.toNat := UInt32.le_iff_toNat_le.mp hc.1
          simp only [decide_eq_true_eq] at hlt
          omega
      · cases hv

theorem Digits.isDec (h : Digits 10 s n) : ∀ c ∈ s, isDec c = true := by
  intro c hc
  obtain ⟨v, hv⟩ := Lib.isSome_of_digitsValue h.2 c hc
  exact isDec_of_digitIn hv

theorem mem_bigIntToString {i : ℤ} (h : c ∈ bigIntToString i) :
    c ≠ ';' ∧ c ≠ '\n' ∧ c ≠ '\x00' := by
  have hdec : ∀ c, isDec c = true → c ≠ ';' ∧ c ≠ '\n' ∧ c ≠ '\x00' := by
    intro c hc
    refine ⟨?_, ?_, ?_⟩ <;> rintro rfl <;> exact absurd hc (by decide)
  generalize hs : bigIntToString i = s at h
  have hsigned := signedDigits_bigIntToString i
  rw [hs] at hsigned
  cases hsigned with
  | pos hd => exact hdec c (hd.isDec c h)
  | neg hd =>
    rcases mem_cons.mp h with rfl | h
    · decide
    · exact hdec c (hd.isDec c h)

theorem leadingNumber_of_digits (h : Digits 10 s n) : leadingNumber s = n := by
  have htake : s.takeWhile Why3.isDec = s := takeWhile_eq_self_iff.mpr h.isDec
  rw [leadingNumber, htake, parseInBase_eq_ok.mpr h.2]

theorem strtol_bigIntToString (n : ℕ) : strtol (bigIntToString n) = min (2 ^ 63 - 1) (n : ℤ) := by
  have hd := digits_bigIntToString n
  generalize bigIntToString n = s at hd
  cases s with
  | nil => exact absurd rfl hd.1
  | cons c s =>
    have hc := hd.isDec c mem_cons_self
    have hspace : isSpace c = false := by
      by_contra hne
      rw [Bool.not_eq_false, isSpace, decide_eq_true_iff] at hne
      simp only [mem_cons, not_mem_nil, or_false] at hne
      rcases hne with rfl | rfl | rfl | rfl | rfl | rfl <;> exact absurd hc (by decide)
    rw [strtol, dropWhile_cons_of_neg (by rw [hspace]; exact Bool.false_ne_true)]
    split
    · next heq =>
        cases heq
        exact absurd hc (by decide)
    · next heq =>
        cases heq
        exact absurd hc (by decide)
    · rw [leadingNumber_of_digits hd]

theorem atoi_eq_iff : atoi (bigIntToString n) = n ↔ n < 2 ^ 31 := by
  rw [atoi, strtol_bigIntToString, longToInt]
  omega

theorem atoi_toNat_eq_iff : (atoi (bigIntToString n) % 2 ^ 32).toNat = n ↔ n < 2 ^ 32 := by
  rw [atoi, strtol_bigIntToString, longToInt]
  omega

/-! ## The first line of a request -/

theorem mem_splitOn : ∀ f ∈ x.splitOn ';', ∀ c ∈ f, c ∈ x ∧ c ≠ ';' := by
  induction x with
  | nil => simp
  | cons a x ih =>
    rw [splitOn_cons_eq_if_modifyHead]
    split
    · rw [forall_mem_cons]
      refine ⟨by simp, fun f hf c hc => ?_⟩
      exact ⟨mem_cons_of_mem a (ih f hf c hc).1, (ih f hf c hc).2⟩
    · next ha =>
        cases hs : x.splitOn ';' with
        | nil => exact absurd hs (splitOn_ne_nil _ _)
        | cons g gs =>
          rw [hs, forall_mem_cons] at ih
          rw [modifyHead_cons, forall_mem_cons, forall_mem_cons]
          refine ⟨⟨⟨mem_cons_self, by simpa using ha⟩, ?_⟩, ?_⟩
          · exact fun c hc => ⟨mem_cons_of_mem a (ih.1 c hc).1, (ih.1 c hc).2⟩
          · exact fun f hf c hc => ⟨mem_cons_of_mem a (ih.2 f hf c hc).1, (ih.2 f hf c hc).2⟩

theorem cString_eq (h : '\x00' ∉ s) : cString s = s := by
  rw [cString, takeWhile_eq_self_iff]
  intro c hc
  rw [decide_eq_true_iff]
  rintro rfl
  exact h hc

theorem cString_bigIntToString (i : ℤ) : cString (bigIntToString i) = bigIntToString i :=
  cString_eq fun h => (mem_bigIntToString h).2.2 rfl

theorem mem_intercalate (h : c ∈ [';'].intercalate fs) : c = ';' ∨ ∃ f ∈ fs, c ∈ f := by
  induction fs with
  | nil => simp at h
  | cons f fs ih =>
    cases fs with
    | nil => exact .inr ⟨f, mem_cons_self, by simpa using h⟩
    | cons g fs =>
      rw [intercalate_cons_of_ne_nil (cons_ne_nil g fs), append_assoc,
        mem_append, mem_append, mem_singleton] at h
      rcases h with h | h | h
      · exact .inr ⟨f, mem_cons_self, h⟩
      · exact .inl h
      · exact (ih h).imp_right fun ⟨x, hx, hc⟩ => ⟨x, mem_cons_of_mem f hx, hc⟩

def firstStrings (strings : List Text) : List Text :=
  ((([';'].intercalate strings).takeWhile (· ≠ '\n')).splitOn ';').map cString

theorem firstStrings_eq_iff {strings : List Text} (hne : strings ≠ [])
    (hnull : ∀ s ∈ strings, '\x00' ∉ s) :
    firstStrings strings = strings ↔ ∀ s ∈ strings, ';' ∉ s ∧ '\n' ∉ s := by
  constructor
  · intro h s hs
    rw [← h] at hs
    obtain ⟨f, hf, rfl⟩ := mem_map.mp hs
    have hsub : ∀ c ∈ cString f, c ∈ f := fun c hc => takeWhile_subset _ hc
    refine ⟨fun hc => (mem_splitOn f hf _ (hsub _ hc)).2 rfl, fun hc => ?_⟩
    simpa using mem_takeWhile_imp (mem_splitOn f hf _ (hsub _ hc)).1
  · intro h
    have hline : ([';'].intercalate strings).takeWhile (· ≠ '\n') = [';'].intercalate strings := by
      rw [takeWhile_eq_self_iff]
      intro c hc
      rw [decide_eq_true_iff]
      rintro rfl
      rcases mem_intercalate hc with hc | ⟨f, hf, hc⟩
      · exact absurd hc (by decide)
      · exact (h f hf).2 hc
    rw [firstStrings, hline, splitOn_intercalate ';' (fun s hs => (h s hs).1) hne]
    rw [map_congr_left fun s hs => cString_eq (hnull s hs), map_id']

structure FirstLine (key : ℕ) (r : Request) (line rest : Text) (q : ServerRequest) : Prop where
  eq : sendRequest r = line ++ '\n' :: rest
  noNewline : '\n' ∉ line
  parse : ∀ parallel, parseRequest parallel line key = (parallel, some q)
  order_iff : q.order = r.order ↔ r.Plain
  whole : r.Plain → rest = []

theorem firstLine_interrupt (key : ℕ) (id : ℤ) : ∃ line rest q,
    FirstLine key (.interrupt id) line rest q := by
  have hsplit : ("interrupt".toList ++ ';' :: bigIntToString id).splitOn ';' =
      ["interrupt".toList, bigIntToString id] := by
    rw [splitOn_append_cons_self_of_not_mem (by decide),
      splitOn_eq_singleton fun h => (mem_bigIntToString h).1 rfl]
  refine ⟨"interrupt".toList ++ ';' :: bigIntToString id, [], .interrupt key (bigIntToString id),
    ?_, ?_, fun parallel => ?_, ?_, fun _ => rfl⟩
  · simp [sendRequest, Request.fields]
  · rw [mem_append, mem_cons]
    rintro (h | h | h)
    · exact absurd h (by decide)
    · exact absurd h (by decide)
    · exact (mem_bigIntToString h).2.1 rfl
  · rw [parseRequest_interrupt parallel key hsplit, cString_bigIntToString]
  · exact ⟨fun _ => ⟨by simp [Request.strings], trivial⟩, fun _ => rfl⟩

/-- The program, its arguments and its file are the strings of the request. -/
theorem order_run_iff {key : ℕ} {id : ℤ} {cmd : List Text} (hcmd : cmd ≠ []) {timeout : ℤ} {mem : ℕ}
    {c : Text} :
    (ServerRequest.run key (bigIntToString id) timeout mem useStdin.isSome c args).order =
        (Request.run id timelimit memlimit cmd useStdin).order ↔
      timeout = timelimit ∧ mem = memlimit ∧ c :: args = cmd ++ useStdin.toList := by
  obtain ⟨c', cmd, rfl⟩ := exists_cons_of_ne_nil hcmd
  rw [ServerRequest.order, Request.order, Order.run.injEq, Job.mk.injEq]
  cases useStdin with
  | none => simp
  | some file =>
    simp only [Option.isSome_some, if_true, headD_cons, tail_cons, true_and,
      Option.toList_some, cons_append, cons.injEq]
    constructor
    · rintro ⟨ht, hm, hc, hargs, hfile⟩
      exact ⟨ht, hm, hc, by rw [← hargs, dropLast_append_getLast? file hfile]⟩
    · rintro ⟨ht, hm, hc, rfl⟩
      simp [ht, hm, hc]

theorem takeWhile_newline (x : Text) : ∃ rest, x ++ ['\n'] = x.takeWhile (· ≠ '\n') ++ '\n' :: rest ∧
    ('\n' ∉ x → rest = []) := by
  rcases takeWhile_dropWhile_cases '\n' x with ⟨hnot, htake⟩ | ⟨r, heq, hnot⟩
  · exact ⟨[], by rw [htake], fun _ => rfl⟩
  · refine ⟨r ++ ['\n'], ?_, fun h => ?_⟩
    · nth_rewrite 1 [heq]
      rw [append_assoc, cons_append]
    · rw [heq] at h
      exact absurd (mem_append_right _ mem_cons_self) h

def numberLine (kind : Text) (i j k : ℤ) (x : Text) : Text :=
  kind ++ ';' :: (bigIntToString i ++ ';' :: (bigIntToString j ++ ';' ::
    (bigIntToString k ++ ';' :: x)))

theorem splitOn_numberLine (hkind : ';' ∉ kind) (i j k : ℤ) (x : Text) :
    (numberLine kind i j k x).splitOn ';' = kind :: bigIntToString i :: bigIntToString j ::
      bigIntToString k :: x.splitOn ';' := by
  have hnumber : ∀ i, ';' ∉ bigIntToString i := fun i h => (mem_bigIntToString h).1 rfl
  rw [numberLine, splitOn_append_cons_self_of_not_mem hkind,
    splitOn_append_cons_self_of_not_mem (hnumber i),
    splitOn_append_cons_self_of_not_mem (hnumber j),
    splitOn_append_cons_self_of_not_mem (hnumber k)]

theorem newline_numberLine (hkind : '\n' ∉ kind) (i j k : ℤ) (hx : '\n' ∉ x) :
    '\n' ∉ numberLine kind i j k x := by
  have hnumber : ∀ i, '\n' ∉ bigIntToString i := fun i h => (mem_bigIntToString h).2.1 rfl
  simp [numberLine, hkind, hnumber, hx]

theorem firstLine_run (key : ℕ) {id : ℤ} {cmd : List Text} (hcmd : cmd ≠ [])
    (hnull : ∀ s ∈ cmd ++ useStdin.toList, '\x00' ∉ s) :
    ∃ line rest q, FirstLine key (.run id timelimit memlimit cmd useStdin) line rest q := by
  have hne : cmd ++ useStdin.toList ≠ [] := append_ne_nil_of_left_ne_nil hcmd _
  generalize hk : (if useStdin.isSome then "runstdin".toList else "run".toList) = kind
  have hkind : kind = "run".toList ∨ kind = "runstdin".toList := by
    subst hk
    split
    · exact .inr rfl
    · exact .inl rfl
  have hstdin : decide (kind = "runstdin".toList) = useStdin.isSome := by
    subst hk
    cases useStdin <;> rfl
  have hkindChar : ';' ∉ kind ∧ '\n' ∉ kind := by
    rcases hkind with rfl | rfl <;> decide
  generalize hx : [';'].intercalate (cmd ++ useStdin.toList) = x
  obtain ⟨rest, hrest, hwhole⟩ := takeWhile_newline x
  have hsend : sendRequest (.run id timelimit memlimit cmd useStdin) =
      numberLine kind id timelimit memlimit (x.takeWhile (· ≠ '\n')) ++ '\n' :: rest := by
    obtain ⟨f, fs, hfs⟩ := exists_cons_of_ne_nil hne
    rw [sendRequest, Request.fields, hk, hfs]
    simp only [intercalate_cons_cons, numberLine, append_assoc, cons_append]
    rw [← hrest, ← hx, hfs]
    rfl
  cases hsplit : (x.takeWhile (· ≠ '\n')).splitOn ';' with
  | nil => exact absurd hsplit (splitOn_ne_nil _ _)
  | cons c args =>
    have hfirst : firstStrings (cmd ++ useStdin.toList) = cString c :: args.map cString := by
      rw [firstStrings, hx, hsplit, map_cons]
    have hfields := splitOn_numberLine hkindChar.1 id timelimit memlimit (x.takeWhile (· ≠ '\n'))
    rw [hsplit] at hfields
    refine ⟨_, rest, _, hsend, newline_numberLine hkindChar.2 _ _ _ ?_,
      fun parallel => parseRequest_run parallel key hfields hkind, ?_, fun hplain => hwhole ?_⟩
    · exact fun h => by simpa using mem_takeWhile_imp h
    · rw [cString_bigIntToString, cString_bigIntToString, cString_bigIntToString, hstdin,
        order_run_iff hcmd, atoi_eq_iff, atoi_toNat_eq_iff, ← hfirst,
        firstStrings_eq_iff hne hnull, Request.Plain, Request.strings]
      tauto
    · rw [← hx]
      intro h
      rcases mem_intercalate h with h | ⟨f, hf, h⟩
      · exact absurd h (by decide)
      · exact (hplain.1 f hf).2 h

/-! ## Runs of the server -/

variable (key : ℕ)

theorem foldl_readChar_line {a : Text} (ha : '\n' ∉ a) (s : Server) :
    a.foldl (Server.readChar key) s = { s with readbuf := s.readbuf ++ a } := by
  induction a generalizing s with
  | nil => rw [foldl_nil, append_nil]
  | cons c a ih =>
    rw [mem_cons, not_or] at ha
    rw [foldl_cons, Server.readChar, if_neg (Ne.symm ha.1), ih ha.2, append_assoc, singleton_append]

theorem readChar_noNewline {s : Server} (hs : '\n' ∉ s.readbuf) (c : Char) :
    '\n' ∉ (s.readChar key c).readbuf := by
  rw [Server.readChar]
  split
  · exact not_mem_nil
  · next hc =>
      rw [mem_append, mem_singleton, not_or]
      exact ⟨hs, fun h => hc h.symm⟩

theorem readOnClient_eq {s : Server} (hs : '\n' ∉ s.readbuf) (chunk : Text) :
    s.readOnClient key chunk = chunk.foldl (Server.readChar key) s := by
  rw [Server.readOnClient, Server.handleMsg, foldl_append, foldl_readChar_line key hs]
  rfl

theorem foldl_readOnClient {s : Server} (hs : '\n' ∉ s.readbuf) (chunks : List Text) :
    chunks.foldl (Server.readOnClient key) s = chunks.flatten.foldl (Server.readChar key) s := by
  induction chunks generalizing s with
  | nil => rfl
  | cons chunk chunks ih =>
    rw [foldl_cons, flatten_cons, foldl_append, ← readOnClient_eq key hs]
    refine ih ?_
    rw [readOnClient_eq key hs]
    clear ih
    induction chunk generalizing s with
    | nil => exact hs
    | cons c chunk ih => exact ih (readChar_noNewline key hs c)

theorem foldl_readChar_requests (text : Text) (s : Server) :
    ∃ out, (text.foldl (Server.readChar key) s).requests = s.requests ++ out := by
  induction text generalizing s with
  | nil => exact ⟨[], (append_nil _).symm⟩
  | cons c text ih =>
    obtain ⟨out, hout⟩ := ih (s.readChar key c)
    rw [foldl_cons, hout, Server.readChar]
    split
    · exact ⟨_, append_assoc _ _ _⟩
    · exact ⟨out, rfl⟩

theorem foldl_readChar_request {line rest : Text} {q : ServerRequest}
    (h : FirstLine key r line rest q) {s : Server} (hs : s.readbuf = []) (text : Text) :
    (sendRequest r ++ text).foldl (Server.readChar key) s =
      (rest ++ text).foldl (Server.readChar key) ⟨s.parallel, s.requests ++ [q], []⟩ := by
  rw [h.eq, append_assoc, cons_append, foldl_append,
    foldl_readChar_line key h.noNewline, foldl_cons, Server.readChar, if_pos rfl, Server.addLine,
    hs, nil_append, h.parse]
  rfl

theorem firstLine_exists (hr : r.Sendable) : ∃ line rest q, FirstLine key r line rest q := by
  cases r with
  | run id timelimit memlimit cmd useStdin =>
    exact firstLine_run key (hr.cmd _ _ _ _ _ rfl) hr.strings
  | interrupt id => exact firstLine_interrupt key id

/-- The server that reads some requests from a state between two lines. -/
theorem orders_iff {rs : List Request} (hrs : ∀ r ∈ rs, r.Sendable) (s : Server)
    (hs : s.readbuf = []) : ∃ out,
    ((rs.map sendRequest).flatten.foldl (Server.readChar key) s).requests = s.requests ++ out ∧
      (out.map ServerRequest.order = rs.map Request.order ↔ ∀ r ∈ rs, r.Plain) := by
  induction rs generalizing s with
  | nil => exact ⟨[], (append_nil _).symm, by simp⟩
  | cons r rs ih =>
    rw [forall_mem_cons] at hrs
    obtain ⟨line, rest, q, hline⟩ := firstLine_exists key hrs.1
    rw [map_cons, flatten_cons, foldl_readChar_request key hline hs]
    by_cases hplain : r.Plain
    · obtain ⟨out, hout, hiff⟩ := ih hrs.2 ⟨s.parallel, s.requests ++ [q], []⟩ rfl
      rw [hline.whole hplain, nil_append]
      refine ⟨q :: out, by rw [hout, append_assoc, singleton_append], ?_⟩
      rw [map_cons, map_cons, cons.injEq, hline.order_iff, hiff, forall_mem_cons]
    · obtain ⟨out, hout⟩ := foldl_readChar_requests key
        (rest ++ (rs.map sendRequest).flatten) ⟨s.parallel, s.requests ++ [q], []⟩
      refine ⟨q :: out, by rw [hout, append_assoc, singleton_append], ?_⟩
      rw [map_cons, map_cons, cons.injEq, hline.order_iff, forall_mem_cons]
      exact ⟨fun h => absurd h.1 hplain, fun h => absurd h.1 hplain⟩

/-- The server carries out the orders of the client, whatever the pieces in which the
characters arrive, if and only if the requests are plain. -/
theorem server_reads_iff (key : ℕ) (parallel : ℤ) {rs : List Request}
    (hrs : ∀ r ∈ rs, r.Sendable) {chunks : List Text}
    (hchunks : chunks.flatten = (rs.map sendRequest).flatten) :
    ((chunks.foldl (Server.readOnClient key) ⟨parallel, [], []⟩).requests.map
        ServerRequest.order = rs.map Request.order) ↔ ∀ r ∈ rs, r.Plain := by
  obtain ⟨out, hout, hiff⟩ := orders_iff key hrs ⟨parallel, [], []⟩ rfl
  rw [foldl_readOnClient key not_mem_nil, hchunks, hout, nil_append]
  exact hiff

def twoRequests : List Request :=
  [.run 1 10 1000 ["alt-ergo".toList, "file.why".toList] none, .interrupt 1]

/-- The first piece ends within the first line. -/
theorem server_reads_iff_twoRequests :
    (([((twoRequests.map sendRequest).flatten).take 7, ((twoRequests.map sendRequest).flatten).drop 7
        ].foldl (Server.readOnClient 3) ⟨2, [], []⟩).requests.map ServerRequest.order) =
      twoRequests.map Request.order := by
  refine (server_reads_iff 3 2 ?_ ?_).mpr ?_
  · simp only [twoRequests, forall_mem_cons, not_mem_nil, false_imp_iff, implies_true, and_true]
    refine ⟨⟨by simp only [Request.strings]; decide, ?_⟩, ⟨by simp [Request.strings], ?_⟩⟩
    · rintro _ _ _ _ _ heq
      cases heq
      simp
    · rintro _ _ _ _ _ heq
      cases heq
  · simp
  · simp only [twoRequests, forall_mem_cons, not_mem_nil, false_imp_iff, implies_true, and_true]
    exact ⟨⟨by simp only [Request.strings]; decide, by decide, by decide⟩,
      ⟨by simp [Request.strings], trivial⟩⟩

/-- The name of the file contains a semicolon. -/
def semicolonRequest : Request := .run 1 10 1000 ["alt-ergo".toList, "my;file.why".toList] none

theorem sendRequest_semicolonRequest :
    sendRequest semicolonRequest = "run;1;10;1000;alt-ergo;my;file.why\n".toList := by
  simp [sendRequest, semicolonRequest, Request.fields, bigIntToString, printDigits, charOfInt]

/-- The program gets two arguments in place of one. -/
theorem server_reads_semicolon :
    semicolonRequest.Sendable ∧
      (Server.readOnClient 3 ⟨2, [], []⟩ (sendRequest semicolonRequest)).requests =
        [.run 3 "1".toList 10 1000 false "alt-ergo".toList ["my".toList, "file.why".toList]] ∧
      (Server.readOnClient 3 ⟨2, [], []⟩ (sendRequest semicolonRequest)).requests.map
        ServerRequest.order ≠ [semicolonRequest.order] := by
  have hread : (Server.readOnClient 3 ⟨2, [], []⟩ (sendRequest semicolonRequest)).requests =
      [.run 3 "1".toList 10 1000 false "alt-ergo".toList ["my".toList, "file.why".toList]] := by
    rw [sendRequest_semicolonRequest]
    decide +kernel
  refine ⟨⟨by simp only [semicolonRequest, Request.strings]; decide, ?_⟩, hread, ?_⟩
  · rintro _ _ _ _ _ heq
    cases heq
    simp
  · rw [hread]
    intro h
    simp only [map_singleton, cons.injEq, ServerRequest.order, semicolonRequest,
      Request.order, Order.run.injEq, Job.mk.injEq] at h
    exact absurd h.1.2.2.2.2.1 (by decide)

end Why3

import Mathlib.Data.Nat.ModEq
import Why3.Core.NumberText

/-!
# What the server writes to a client

After `src/server/queue.c`, `src/server/writebuf.c` and `write_to_client` of
`src/server/server-unix.c`. Messages wait in a queue that is an array used as a ring. A buffer
holds the message that is being written, and the position of what is left of it.

Memory is not exhausted, and a message is given by its characters before the null character. A cell
that was not written yet holds anything. The sizes are numbers of the types `int` and
`unsigned int` of the source as long as messages are shorter than `2 ^ 31` and at most `2 ^ 30` of
them wait.
-/

namespace Why3.ServerWrite

open List

/-! ## The queue -/

structure Queue (α : Type) where
  data : ℕ → α
  pointer : ℕ
  len : ℕ
  capacity : ℕ
  pointer_lt : pointer < capacity
  len_le : len ≤ capacity

namespace Queue

variable {α : Type}

def initQueue (data : ℕ → α) (capacity : ℕ) (h : 0 < capacity) : Queue α :=
  ⟨data, 0, 0, capacity, h, Nat.zero_le _⟩

/-- Nothing stands for a failed assertion. -/
def queuePop (q : Queue α) : Option (α × Queue α) :=
  if 0 < q.len then
    some (q.data q.pointer,
      { q with
        len := q.len - 1
        pointer := (q.pointer + 1) % q.capacity
        pointer_lt := Nat.mod_lt _ (Nat.zero_lt_of_lt q.pointer_lt)
        len_le := (Nat.sub_le _ _).trans q.len_le })
  else none

def simplePush (q : Queue α) (elt : α) (h : q.len < q.capacity) : Queue α :=
  { q with
    data := fun i => if i = (q.pointer + q.len) % q.capacity then elt else q.data i
    len := q.len + 1
    len_le := h }

/-- The part of the array from the pointer on is copied to its new end. -/
def resizeQueue (q : Queue α) : Queue α where
  data := fun i =>
    let newP := 2 * q.capacity - q.capacity + q.pointer
    if newP ≤ i ∧ i < newP + (q.capacity - q.pointer) then q.data (q.pointer + (i - newP))
    else q.data i
  pointer := 2 * q.capacity - q.capacity + q.pointer
  len := q.len
  capacity := 2 * q.capacity
  pointer_lt := by have := q.pointer_lt; omega
  len_le := by have := q.len_le; omega

def queuePush (q : Queue α) (elt : α) : Queue α :=
  if h : q.len = q.capacity then
    q.resizeQueue.simplePush elt
      (by have := q.pointer_lt; simp only [resizeQueue]; omega)
  else q.simplePush elt (lt_of_le_of_ne q.len_le h)

def queueIsEmpty (q : Queue α) : Bool := q.len == 0

/-- The sum of the pointer and of the length does not overflow. -/
def Fits (q : Queue α) : Prop := q.capacity ≤ 2 ^ 31

def toList (q : Queue α) : List α :=
  (range q.len).map fun i => q.data ((q.pointer + i) % q.capacity)

variable (q : Queue α)

@[simp] theorem length_toList : q.toList.length = q.len := by simp [toList]

theorem queuePop_toList : q.queuePop.map (fun p => (p.1, p.2.toList)) =
    match q.toList with
    | [] => none
    | a :: l => some (a, l) := by
  unfold queuePop toList
  by_cases hlen : 0 < q.len
  · obtain ⟨n, hn⟩ := Nat.exists_eq_add_of_lt hlen
    have hshift : ∀ i, (q.pointer + (i + 1)) % q.capacity =
        ((q.pointer + 1) % q.capacity + i) % q.capacity := fun i => by
      rw [Nat.mod_add_mod, Nat.add_right_comm, Nat.add_assoc]
    have hrange : range q.len = 0 :: (range (q.len - 1)).map Nat.succ := by
      rw [hn, range_succ_eq_map, Nat.add_sub_cancel]
    simp only [if_pos hlen, hrange, Option.map_some, map_cons, map_map, Nat.add_zero,
      Nat.mod_eq_of_lt q.pointer_lt]
    refine congrArg (fun l => some (_, l)) (map_congr_left fun i _ => ?_)
    exact congrArg q.data (hshift i).symm
  · simp [Nat.eq_zero_of_not_pos hlen]

theorem toList_simplePush (elt : α) (h : q.len < q.capacity) :
    (q.simplePush elt h).toList = q.toList ++ [elt] := by
  unfold simplePush toList
  rw [range_succ, map_append, map_singleton]
  dsimp only
  rw [if_pos rfl]
  congr 1
  refine map_congr_left fun i hi => if_neg fun heq => ?_
  have hi := mem_range.mp hi
  have hmod : i ≡ q.len [MOD q.capacity] := Nat.ModEq.add_left_cancel' q.pointer heq
  exact hi.ne (hmod.eq_of_lt_of_lt (hi.trans h) h)

theorem toList_resizeQueue (h : q.len = q.capacity) : q.resizeQueue.toList = q.toList := by
  unfold toList
  refine map_congr_left fun i hi => ?_
  have hi : i < q.len := mem_range.mp hi
  have hp := q.pointer_lt
  simp only [resizeQueue]
  by_cases hwrap : q.pointer + i < q.capacity
  · rw [Nat.mod_eq_of_lt (by omega), Nat.mod_eq_of_lt hwrap, if_pos (by omega)]
    congr 1
    omega
  · rw [Nat.mod_eq_sub_mod (by omega), Nat.mod_eq_of_lt (by omega),
      Nat.mod_eq_sub_mod (by omega), Nat.mod_eq_of_lt (by omega), if_neg (by omega)]
    congr 1
    omega

theorem toList_queuePush (elt : α) : (q.queuePush elt).toList = q.toList ++ [elt] := by
  unfold queuePush
  split
  · next h => rw [toList_simplePush, q.toList_resizeQueue h]
  · exact q.toList_simplePush elt _

theorem Fits.queuePush {q : Queue α} (h : q.Fits) (hlen : q.len ≤ 2 ^ 30) (elt : α) :
    (q.queuePush elt).Fits := by
  unfold Fits Queue.queuePush
  split
  · next hfull =>
      simp only [simplePush, resizeQueue]
      omega
  · exact h

theorem queuePop_sizes {q q' : Queue α} {a : α} (h : q.queuePop = some (a, q')) :
    q'.capacity = q.capacity ∧ q'.len ≤ q.len := by
  unfold queuePop at h
  split at h
  · cases h
    exact ⟨rfl, Nat.sub_le _ _⟩
  · cases h

theorem Fits.queuePop {q q' : Queue α} {a : α} (h : q.Fits) (hpop : q.queuePop = some (a, q')) :
    q'.Fits := by
  rwa [Fits, (queuePop_sizes hpop).1]

/-- Elements are pushed, and `none` pops one. What is popped is returned. -/
def run (q : Queue α) : List (Option α) → Option (List α × Queue α)
  | [] => some ([], q)
  | some a :: ops => (q.queuePush a).run ops
  | none :: ops => do
    let (a, q) ← q.queuePop
    let (l, q) ← q.run ops
    return (a :: l, q)

end Queue

def fifo {α : Type} (l : List α) : List (Option α) → Option (List α × List α)
  | [] => some ([], l)
  | some a :: ops => fifo (l ++ [a]) ops
  | none :: ops =>
    match l with
    | [] => none
    | a :: l => (fifo l ops).map fun p => (a :: p.1, p.2)

theorem Queue.run_eq_fifo {α : Type} (q : Queue α) (ops : List (Option α)) :
    (q.run ops).map (fun p => (p.1, p.2.toList)) = fifo q.toList ops := by
  induction ops generalizing q with
  | nil => rfl
  | cons op ops ih =>
    cases op with
    | some a => rw [run, fifo, ih, toList_queuePush]
    | none =>
      have hpop := q.queuePop_toList
      cases hl : q.toList with
      | nil =>
        rw [hl, Option.map_eq_none_iff] at hpop
        rw [run, fifo, hpop]
        rfl
      | cons a l =>
        rw [hl, Option.map_eq_some_iff] at hpop
        obtain ⟨⟨a', q'⟩, hq, heq⟩ := hpop
        cases heq
        rw [run, fifo, hq, ← ih q']
        simp only [Option.bind_eq_bind, Option.bind_some]
        cases q'.run ops <;> rfl

theorem Queue.Fits.run {α : Type} {ops : List (Option α)} {q q' : Queue α} {l : List α}
    (h : q.Fits) (hlen : q.len + ops.countP Option.isSome ≤ 2 ^ 30)
    (hrun : q.run ops = some (l, q')) : q'.Fits := by
  induction ops generalizing q l with
  | nil =>
    cases hrun
    exact h
  | cons op ops ih =>
    cases op with
    | some a =>
      rw [countP_cons_of_pos rfl] at hlen
      have hpush : (q.queuePush a).len = q.len + 1 := by
        rw [← length_toList, toList_queuePush, length_append, length_toList, length_singleton]
      exact ih (h.queuePush (by omega) a) (by omega) hrun
    | none =>
      rw [countP_cons_of_neg (by simp)] at hlen
      obtain ⟨⟨a, q₁⟩, hpop, hrun⟩ := Option.bind_eq_some_iff.mp hrun
      obtain ⟨⟨l₁, q₂⟩, hrun₁, hrun⟩ := Option.bind_eq_some_iff.mp hrun
      cases hrun
      have hle := (queuePop_sizes hpop).2
      exact ih (h.queuePop hpop) (by omega) hrun₁

/-! ## The buffer -/

structure WriteBuf where
  data : Option Text
  len : ℕ
  pointer : ℕ
  isWriting : Bool
  writequeue : Queue Text

def initWritebuf (junk : ℕ → Text) (capacity : ℕ) (h : 0 < capacity) : WriteBuf :=
  ⟨none, 0, 0, false, .initQueue junk capacity h⟩

def canWrite (b : WriteBuf) : Bool := !b.isWriting

def hasWriteData (b : WriteBuf) : Bool := b.data.isSome

/-- The text to be written next. Nothing stands for a failed assertion, here and below. -/
def prepareWrite (b : WriteBuf) : Option (Text × WriteBuf) :=
  if canWrite b then b.data.map fun data => (data.drop b.pointer, { b with isWriting := true })
  else none

def haveWritten (b : WriteBuf) (size : ℕ) : Option WriteBuf :=
  if b.isWriting ∧ b.pointer + size ≤ b.len then
    if b.pointer + size < b.len then
      some { b with isWriting := false, pointer := b.pointer + size }
    else if b.writequeue.queueIsEmpty then
      some { b with isWriting := false, pointer := 0, data := none, len := 0 }
    else b.writequeue.queuePop.map fun (data, q) =>
      { isWriting := false, pointer := 0, data := some data, len := data.length, writequeue := q }
  else none

def pushWriteData (b : WriteBuf) (data : Text) : WriteBuf :=
  if hasWriteData b then { b with writequeue := b.writequeue.queuePush data }
  else { b with data := some data, pointer := 0, len := data.length }

/-- The text that `write` accepts. It returns the number of characters, or fails. -/
def writeToClient (b : WriteBuf) (hasWritten : Option ℕ) : Option (Text × WriteBuf) := do
  let (buf, b) ← prepareWrite b
  match hasWritten with
  | none => return ([], b)
  | some n => return (buf.take n, ← haveWritten b n)

/-! ## Histories -/

inductive Event where
  | push (data : Text)
  | write (hasWritten : Option ℕ)

def writes (b : WriteBuf) : List Event → Option (Text × WriteBuf)
  | [] => some ([], b)
  | .push data :: es => writes (pushWriteData b data) es
  | .write n :: es => do
    let (sent, b) ← writeToClient b n
    let (rest, b) ← writes b es
    return (sent ++ rest, b)

/-- Messages are not empty, not too long and not too many. A write is tried when there is something
to write, and accepts a part of it. -/
def Event.Allowed (b : WriteBuf) : Event → Prop
  | .push data => data ≠ [] ∧ data.length < 2 ^ 31 ∧ b.writequeue.len ≤ 2 ^ 30
  | .write none => hasWriteData b = true
  | .write (some n) => hasWriteData b = true ∧ 1 ≤ n ∧ n ≤ b.len - b.pointer

def Allowed (b : WriteBuf) : List Event → Prop
  | [] => True
  | .push data :: es => (Event.push data).Allowed b ∧ Allowed (pushWriteData b data) es
  | .write n :: es =>
    (Event.write n).Allowed b ∧ ∀ p, writeToClient b n = some p → Allowed p.2 es

def pushed (es : List Event) : Text :=
  es.flatMap fun
    | .push data => data
    | .write _ => []

def WriteBuf.rest (b : WriteBuf) : Text :=
  match b.data with
  | none => []
  | some data => data.drop b.pointer ++ b.writequeue.toList.flatten

/-- The sizes are numbers of their types in the source. -/
def WriteBuf.Fits (b : WriteBuf) : Prop := b.len < 2 ^ 31 ∧ b.writequeue.Fits

structure WriteBuf.Inv (b : WriteBuf) : Prop where
  empty : b.data = none → b.writequeue.toList = []
  current : ∀ data, b.data = some data → b.len = data.length ∧ b.pointer < b.len
  waiting : ∀ data ∈ b.writequeue.toList, data ≠ [] ∧ data.length < 2 ^ 31
  fits : b.Fits

variable {b b' : WriteBuf} {data : Text} {n : ℕ}

theorem WriteBuf.Inv.rest_eq_nil (h : b.Inv) : b.rest = [] ↔ hasWriteData b = false := by
  unfold rest hasWriteData
  cases hd : b.data with
  | none => simp
  | some data =>
    have := h.current data hd
    simp
    omega

theorem WriteBuf.Inv.push (h : b.Inv) (ha : (Event.push data).Allowed b) :
    (pushWriteData b data).Inv ∧ (pushWriteData b data).rest = b.rest ++ data := by
  obtain ⟨hdata, hlen, hqueue⟩ := ha
  have hpos := length_pos_iff.mpr hdata
  unfold pushWriteData hasWriteData rest
  cases hd : b.data with
  | none =>
    have hq := h.empty hd
    refine ⟨⟨by simp, ?_, by simp [hq], hlen, h.fits.2⟩, by simp [hq]⟩
    rintro _ ⟨⟩
    exact ⟨rfl, hpos⟩
  | some data' =>
    refine ⟨⟨by simp, by simpa [hd] using h.current data' hd, ?_, h.fits.1,
      h.fits.2.queuePush hqueue data⟩, ?_⟩
    · simp only [Option.isSome_some, if_true, Queue.toList_queuePush, forall_mem_append,
        forall_mem_singleton]
      exact ⟨h.waiting, hdata, hlen⟩
    · simp [Queue.toList_queuePush]

theorem WriteBuf.Inv.haveWritten (h : b.Inv) (hw : b.isWriting = true) (hd : b.data = some data)
    (hall : b.pointer + n ≤ b.len) : ∃ b', haveWritten b n = some b' ∧ b'.isWriting = false ∧
      b'.Inv ∧ (data.drop b.pointer).take n ++ b'.rest = b.rest := by
  obtain ⟨hlen, -⟩ := h.current data hd
  have hrest : b.rest = data.drop b.pointer ++ b.writequeue.toList.flatten := by rw [rest, hd]
  rw [ServerWrite.haveWritten, if_pos ⟨hw, hall⟩, hrest]
  by_cases hmore : b.pointer + n < b.len
  · refine ⟨_, if_pos hmore, rfl, ⟨h.empty, ?_, h.waiting, h.fits⟩, ?_⟩
    · rintro data' hd'
      cases hd.symm.trans hd'
      exact ⟨hlen, hmore⟩
    · simp only [rest, hd]
      rw [← append_assoc, ← drop_drop, take_append_drop]
  rw [if_neg hmore, take_of_length_le (by simp; omega)]
  have hpop := b.writequeue.queuePop_toList
  cases hq : b.writequeue.toList with
  | nil =>
    have hempty : b.writequeue.queueIsEmpty = true := by
      simpa [Queue.queueIsEmpty] using congrArg List.length hq
    refine ⟨_, if_pos hempty, rfl, ⟨fun _ => hq, ?_, h.waiting, Nat.two_pow_pos 31, h.fits.2⟩, rfl⟩
    rintro _ ⟨⟩
  | cons next l =>
    have hempty : ¬ b.writequeue.queueIsEmpty = true := by
      rw [Queue.queueIsEmpty, ← Queue.length_toList, hq]
      simp
    rw [hq, Option.map_eq_some_iff] at hpop
    obtain ⟨⟨next', q⟩, hpop, heq⟩ := hpop
    obtain ⟨rfl, rfl⟩ := Prod.mk.inj heq
    have hwait := h.waiting
    rw [hq, forall_mem_cons] at hwait
    rw [if_neg hempty, hpop]
    refine ⟨_, rfl, rfl, ⟨fun hnone => (by cases hnone), ?_, hwait.2, hwait.1.2,
      h.fits.2.queuePop hpop⟩, rfl⟩
    rintro _ ⟨⟩
    exact ⟨rfl, length_pos_iff.mpr hwait.1.1⟩

theorem WriteBuf.Inv.write {n : Option ℕ} (h : b.Inv) (hcan : b.isWriting = false)
    (hn : (Event.write n).Allowed b) : ∃ sent b', writeToClient b n = some (sent, b') ∧
      b'.isWriting = n.isNone ∧ b'.Inv ∧ sent ++ b'.rest = b.rest := by
  have hwriting : { b with isWriting := true }.Inv := ⟨h.empty, h.current, h.waiting, h.fits⟩
  have hprepare : ∀ {data}, b.data = some data →
      prepareWrite b = some (data.drop b.pointer, { b with isWriting := true }) := fun hd => by
    simp [prepareWrite, canWrite, hcan, hd]
  cases n with
  | none =>
    obtain ⟨data, hd⟩ := Option.isSome_iff_exists.mp hn
    exact ⟨[], _, by rw [writeToClient, hprepare hd]; rfl, rfl, hwriting, rfl⟩
  | some n =>
    obtain ⟨hhas, -, hle⟩ := hn
    obtain ⟨data, hd⟩ := Option.isSome_iff_exists.mp hhas
    have hlt := (h.current data hd).2
    obtain ⟨b', heq, hfree, hinv, hrest⟩ := hwriting.haveWritten (n := n) rfl hd
      (show b.pointer + n ≤ b.len by omega)
    exact ⟨_, b', by rw [writeToClient, hprepare hd]; simp [heq], hfree, hinv, hrest⟩

def Event.MayFollow : Event → Event → Prop
  | .write none, .write _ => False
  | _, _ => True

def Calm (isWriting : Bool) (es : List Event) : Prop :=
  es.Pairwise Event.MayFollow ∧ (isWriting = true → ∀ n, .write n ∉ es)

theorem calm_push {w : Bool} {es : List Event} : Calm w (.push data :: es) ↔ Calm w es := by
  simp [Calm, pairwise_cons, Event.MayFollow]

theorem not_calm_write {n : Option ℕ} {es : List Event} : ¬ Calm true (.write n :: es) :=
  fun h => h.2 rfl n mem_cons_self

theorem calm_write {n : Option ℕ} {es : List Event} :
    Calm false (.write n :: es) ↔ Calm n.isNone es := by
  cases n with
  | some n => simp [Calm, pairwise_cons, Event.MayFollow]
  | none =>
    have hfollow : (∀ e ∈ es, Event.MayFollow (.write none) e) ↔ ∀ n, .write n ∉ es := by
      refine ⟨fun h n hn => h _ hn, fun h e he => ?_⟩
      cases e with
      | push data => trivial
      | write n => exact h n he
    simp [Calm, pairwise_cons, hfollow, and_comm]

theorem writes_spec (es : List Event) (h : b.Inv) (ha : Allowed b es) :
    match writes b es with
    | some (sent, b') => Calm b.isWriting es ∧ b'.Inv ∧ sent ++ b'.rest = b.rest ++ pushed es
    | none => ¬ Calm b.isWriting es := by
  induction es generalizing b with
  | nil => simp [writes, Calm, pushed, h]
  | cons e es ih =>
    cases e with
    | push data =>
      obtain ⟨hdata, ha⟩ := ha
      obtain ⟨hinv, hrest⟩ := h.push hdata
      have hsame : (pushWriteData b data).isWriting = b.isWriting := by
        unfold pushWriteData
        split <;> rfl
      have := ih hinv ha
      rw [writes, calm_push]
      rw [hsame, hrest] at this
      simpa [pushed] using this
    | write n =>
      obtain ⟨hallowed, ha⟩ := ha
      rw [writes]
      cases hw : b.isWriting with
      | true => simp [writeToClient, prepareWrite, canWrite, hw, not_calm_write]
      | false =>
        obtain ⟨sent, b', heq, hwriting, hinv, hrest⟩ := h.write hw hallowed
        have := ih hinv (ha _ heq)
        rw [calm_write, ← hwriting, ← hrest]
        cases hes : writes b' es with
        | none => simpa [heq, hes] using this
        | some p => simpa [heq, hes, pushed] using this

theorem inv_initWritebuf (junk : ℕ → Text) {capacity : ℕ} (hcap : 0 < capacity)
    (hmax : capacity ≤ 2 ^ 31) : (initWritebuf junk capacity hcap).Inv :=
  ⟨fun _ => rfl, fun _ h => (by cases h), fun _ h => (by cases h), Nat.two_pow_pos 31, hmax⟩

/-- The queue is first in, first out. Messages are written completely and in order as long as no
write is tried after one that failed: its assertion fails. The sizes do not overflow. -/
theorem writes_exact_iff {α : Type} (cells : ℕ → α) {ops : List (Option α)}
    (hops : ops.countP Option.isSome ≤ 2 ^ 30) (junk : ℕ → Text) {capacity : ℕ}
    (hcap : 0 < capacity) (hmax : capacity ≤ 2 ^ 31) {es : List Event}
    (ha : Allowed (initWritebuf junk capacity hcap) es) :
    (((Queue.initQueue cells capacity hcap).run ops).map (fun p => (p.1, p.2.toList)) =
        fifo [] ops ∧
      ∀ l q, (Queue.initQueue cells capacity hcap).run ops = some (l, q) → q.Fits) ∧
      ((∃ sent b, writes (initWritebuf junk capacity hcap) es = some (sent, b) ∧ b.Fits ∧
          sent <+: pushed es ∧ (hasWriteData b = false ↔ sent = pushed es)) ↔
        es.Pairwise Event.MayFollow) := by
  have hfits : (Queue.initQueue cells capacity hcap).Fits := hmax
  refine ⟨⟨Queue.run_eq_fifo _ ops, fun l q => hfits.run (by simpa [Queue.initQueue] using hops)⟩, ?_⟩
  have hcalm : es.Pairwise Event.MayFollow ↔ Calm false es := by simp [Calm]
  have hspec := writes_spec es (inv_initWritebuf junk hcap hmax) ha
  rw [hcalm]
  cases hes : writes (initWritebuf junk capacity hcap) es with
  | none =>
    rw [hes] at hspec
    exact iff_of_false (by simp) hspec
  | some p =>
    obtain ⟨sent, b⟩ := p
    rw [hes] at hspec
    obtain ⟨hcalm, hinv, heq⟩ := hspec
    have heq : sent ++ b.rest = pushed es := heq
    refine iff_of_true ⟨sent, b, rfl, hinv.fits, ⟨_, heq⟩, ?_⟩ hcalm
    rw [← hinv.rest_eq_nil, ← heq, self_eq_append_right]

theorem writes_exact_iff_failed :
    (((Queue.initQueue id 1 Nat.one_pos).run [some 1, some 2, none]).map
        (fun p => (p.1, p.2.toList)) = fifo [] [some 1, some 2, none] ∧
      ∀ l q, (Queue.initQueue id 1 Nat.one_pos).run [some 1, some 2, none] = some (l, q) →
        q.Fits) ∧
    ((∃ sent b, writes (initWritebuf (fun _ => []) 1 Nat.one_pos)
          [.push ['a', 'b'], .write (some 1), .write none] = some (sent, b) ∧ b.Fits ∧
        sent <+: pushed [.push ['a', 'b'], .write (some 1), .write none] ∧
        (hasWriteData b = false ↔
          sent = pushed [.push ['a', 'b'], .write (some 1), .write none])) ↔
      [Event.push ['a', 'b'], .write (some 1), .write none].Pairwise Event.MayFollow) :=
  writes_exact_iff id (by decide) _ Nat.one_pos (by decide)
    ⟨⟨cons_ne_nil _ _, by decide, by decide⟩, ⟨rfl, by decide, by decide⟩,
      fun _ h => by cases h; exact ⟨rfl, fun _ _ => trivial⟩⟩

/-- A second write after a failed one. -/
theorem writes_after_failure :
    Allowed (initWritebuf (fun _ => []) 1 Nat.one_pos) [.push ['a'], .write none, .write (some 1)] ∧
      writes (initWritebuf (fun _ => []) 1 Nat.one_pos)
        [.push ['a'], .write none, .write (some 1)] = none :=
  ⟨⟨⟨cons_ne_nil _ _, by decide, by decide⟩, rfl, fun _ h => by
      cases h
      exact ⟨⟨rfl, by decide, by decide⟩, fun _ _ => trivial⟩⟩, rfl⟩

end Why3.ServerWrite

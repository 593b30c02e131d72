import Why3.Mlw.Kode

/-!
# Reshaping of the control flow

The second stage of `src/mlw/vc.ml`. The exits of every outcome are counted first:
code after an outcome without an exit is removed, and code after an outcome with a
single exit is marked. The marked code is then moved to the exit.
-/

namespace Why3

open Lib

abbrev Exits := TagMap ℕ Bool

def joinExits (out1 out2 : Exits) : Exits := out1.unionWith (fun _ _ => false) out2

def Exits.singleton (i : ℕ) : Exits := TagMap.empty.add i true

def Kode.isBasic : Kode → Bool
  | .khavoc _ | .klet _ _ _ | .kval _ _ | .kcut _ => true
  | _ => false

def cannotSwitch : Exn := .errorm "Cannot switch to the classical WP procedure"

mutual

def mark (vcTag : KTag) : Kode → Except Exn (Kode × Exits)
  | .kseq k1 i k2 =>
    if k1.isBasic ∧ i = 0 then do
      let (k2, out2) ← mark vcTag k2
      .ok (.kseq k1 0 k2, out2)
    else do
      let (k1, out1) ← mark vcTag k1
      match out1.find? i with
      | some push => do
        let (k2, out2) ← mark vcTag k2
        let k2 := if push then .ktag (.push (!out2.mem 0)) k2 else k2
        .ok (.kseq k1 i k2, joinExits (out1.remove i) out2)
      | none => .ok (k1, out1)
  | .kpar k1 k2 => do
    let (k1, out1) ← mark vcTag k1
    let (k2, out2) ← mark vcTag k2
    .ok (.kpar k1 k2, joinExits out1 out2)
  | .kif v k1 k2 => do
    let (k1, out1) ← mark vcTag k1
    let (k2, out2) ← mark vcTag k2
    .ok (.kif v k1 k2, joinExits out1 out2)
  | .kcase v bl => do
    let (bl, out) ← markBranches vcTag bl
    .ok (.kcase v bl, out)
  | .khavoc wr => .ok (.khavoc wr, .singleton 0)
  | .klet v t f => .ok (.klet v t f, .singleton 0)
  | .kval vl f => .ok (.kval vl f, .singleton 0)
  | .kcut f => .ok (.kcut f, .singleton 0)
  | .kstop f => .ok (.kstop f, .empty)
  | .kcont i => .ok (.kcont i, .singleton i)
  | .kaxiomVc k => do
    let (k, _) ← mark .wp k
    .ok (.kaxiomVc k, .singleton 0)
  | .ktag (.off a) k => do
    let (k, out) ← mark vcTag k
    .ok (.ktag (.off a) k, out)
  | .ktag .wp k =>
    if vcTag = .wp then mark vcTag k
    else do
      let (k, out) ← mark .wp k
      if out.isEmpty then
        .ok (.ktag (.out out) (.ktag .wp k), out.map fun _ => false)
      else .error cannotSwitch
  | .ktag .sp k =>
    if vcTag = .sp then mark vcTag k
    else do
      let (k, out) ← mark .sp k
      .ok (.ktag (.out out) (.ktag .sp k), out.map fun _ => false)
  | .ktag (.out _) _ => .error .assertFailure
  | .ktag (.push _) _ => .error .assertFailure

def markBranches (vcTag : KTag) :
    List (Pattern × Kode) → Except Exn (List (Pattern × Kode) × Exits)
  | [] => .ok ([], .empty)
  | (p, k) :: bl => do
    let (bl, out2) ← markBranches vcTag bl
    let (k, out1) ← mark vcTag k
    .ok ((p, k) :: bl, joinExits out1 out2)

end

/-- Code that is to be moved to the exit of an outcome, and whether it is closed: it
does not end normally. -/
abbrev Moved := TagMap ℕ (Kode × Bool)

def atExit (q : Moved) (i : ℕ) : Kode :=
  match q.find? i with
  | some (c, cl) => if i = 0 ∨ cl then c else .kseq c 0 (.kcont i)
  | none => .kcont i

def afterExit (q : Moved) (k : Kode) : Kode :=
  match q.find? 0 with
  | some (c, _) => .kseq k 0 c
  | none => k

def pushClosed (cl : Bool) (q : Moved) : Bool :=
  cl || match q.find? 0 with
    | some (_, cl) => cl
    | none => false

mutual

def push : Kode → Moved → Except Exn Kode
  | .kseq k1 i k2, q =>
    match k2 with
    | .ktag (.push cl) k2 => do
      let c ← push k2 q
      let q' := q.add i (c, pushClosed cl q)
      if i = 0 ∨ pushClosed cl q then push k1 q'
      else do .ok (.kseq (← push k1 q') i (.kcont 0))
    | k2 => do .ok (.kseq (← push k1 (q.remove i)) i (← push k2 q))
  | .kpar k1 k2, q => do .ok (.kpar (← push k1 q) (← push k2 q))
  | .kif v k1 k2, q => do .ok (.kif v (← push k1 q) (← push k2 q))
  | .kcase v bl, q => do .ok (.kcase v (← pushBranches bl q))
  | .khavoc wr, q => .ok (afterExit q (.khavoc wr))
  | .klet v t f, q => .ok (afterExit q (.klet v t f))
  | .kval vl f, q => .ok (afterExit q (.kval vl f))
  | .kcut f, q => .ok (afterExit q (.kcut f))
  | .kstop f, _ => .ok (.kstop f)
  | .kcont i, q => .ok (atExit q i)
  | .kaxiomVc k, q => do .ok (afterExit q (.kaxiomVc (← push k .empty)))
  | .ktag tag k, q =>
    match tag with
    | .off a => do .ok (.ktag (.off a) (← push k q))
    | .push _ => .error .assertFailure
    | tag => do .ok (.ktag tag (← push k .empty))

def pushBranches : List (Pattern × Kode) → Moved → Except Exn (List (Pattern × Kode))
  | [], _ => .ok []
  | (p, k) :: bl, q => do .ok ((p, ← push k q) :: (← pushBranches bl q))

end

def reflow (vcWp : Bool) (k : Kode) : Except Exn Kode := do
  let k := if vcWp then k else .ktag .sp k
  let (k, _) ← mark .wp k
  push k .empty

end Why3

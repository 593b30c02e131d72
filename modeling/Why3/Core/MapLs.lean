import Why3.Core.Occurs

/-!
# Replacing the applications of a symbol

A traversal after `t_map` of `src/core/term.ml` that stops at the applications of one
symbol. What replaces an application has its type, so the type checks of `t_map` pass
and are left out.
-/

namespace Why3

open Lib Term List

mutual

def mapLs (ls : LSymbol) (g : Term → List Term → Except Exn Term) : Term → Except Exn Term
  | tapp a ls' tl ty =>
    if ls = ls' then g (tapp a ls' tl ty) tl
    else do .ok (tapp a ls' (← mapLsList ls g tl) ty)
  | tif a f t e => do .ok (tif a (← mapLs ls g f) (← mapLs ls g t) (← mapLs ls g e))
  | tlet a t v e => do .ok (tlet a (← mapLs ls g t) v (← mapLs ls g e))
  | tcase a t bl => do .ok (tcase a (← mapLs ls g t) (← mapLsBranches ls g bl))
  | teps a v f => do .ok (teps a v (← mapLs ls g f))
  | tquant a q vl trl f => do .ok (tquant a q vl (← mapLsTriggers ls g trl) (← mapLs ls g f))
  | tbinop a op f1 f2 => do .ok (tbinop a op (← mapLs ls g f1) (← mapLs ls g f2))
  | tnot a f => do .ok (tnot a (← mapLs ls g f))
  | t => .ok t

def mapLsList (ls : LSymbol) (g : Term → List Term → Except Exn Term) :
    List Term → Except Exn (List Term)
  | [] => .ok []
  | t :: tl => do .ok ((← mapLs ls g t) :: (← mapLsList ls g tl))

def mapLsBranches (ls : LSymbol) (g : Term → List Term → Except Exn Term) :
    List (Pattern × Term) → Except Exn (List (Pattern × Term))
  | [] => .ok []
  | (p, t) :: bl => do .ok ((p, ← mapLs ls g t) :: (← mapLsBranches ls g bl))

def mapLsTriggers (ls : LSymbol) (g : Term → List Term → Except Exn Term) :
    List (List Term) → Except Exn (List (List Term))
  | [] => .ok []
  | tl :: trl => do .ok ((← mapLsList ls g tl) :: (← mapLsTriggers ls g trl))

end

section Self

open List

variable {ls : LSymbol} {g : Term → List Term → Except Exn Term}

theorem mapLsList_self {tl : List Term} (h : ∀ t ∈ tl, mapLs ls g t = .ok t) :
    mapLsList ls g tl = .ok tl := by
  induction tl with
  | nil => rfl
  | cons t tl ih =>
    rw [forall_mem_cons] at h
    rw [mapLsList, h.1, ih h.2]
    rfl

theorem mapLsBranches_self {bl : List (Pattern × Term)}
    (h : ∀ p t, (p, t) ∈ bl → mapLs ls g t = .ok t) : mapLsBranches ls g bl = .ok bl := by
  induction bl with
  | nil => rfl
  | cons b bl ih =>
    rw [mapLsBranches, h b.1 b.2 mem_cons_self, ih fun p t hb => h p t (.tail _ hb)]
    rfl

theorem mapLsTriggers_self {trl : List (List Term)}
    (h : ∀ tl ∈ trl, ∀ t ∈ tl, mapLs ls g t = .ok t) : mapLsTriggers ls g trl = .ok trl := by
  induction trl with
  | nil => rfl
  | cons tl trl ih =>
    rw [forall_mem_cons] at h
    rw [mapLsTriggers, mapLsList_self h.1, ih h.2]
    rfl

/-- Nothing changes where the symbol does not occur, or is replaced by itself. -/
theorem mapLs_self (t : Term)
    (h : Sym.ls ls ∈ symsTerm t → ∀ a tl ty, g (tapp a ls tl ty) tl = .ok (tapp a ls tl ty)) :
    mapLs ls g t = .ok t := by
  induction t using inductionOn with
  | tapp a ls' tl ty ih =>
    rw [mapLs]
    split
    · next heq =>
        subst heq
        exact h (by simp [symsTerm]) a tl ty
    · rw [mapLsList_self fun t ht => ih t ht fun hls => h ?_]
      · rfl
      · exact mem_append_right _ (.tail _ (mem_symsTermList.mpr ⟨t, ht, hls⟩))
  | tcase _ t bl iht ihb =>
    simp only [symsTerm, mem_append, mem_symsTermBranches] at h
    rw [mapLs, iht fun hls => h (.inl hls), mapLsBranches_self fun p u hb =>
      ihb p u hb fun hls => h (.inr ⟨(p, u), hb, .inr hls⟩)]
    rfl
  | tquant _ _ _ trl f iht ihf =>
    simp only [symsTerm, mem_append, mem_symsTermTriggers] at h
    rw [mapLs, ihf fun hls => h (.inr hls), mapLsTriggers_self fun tl htl t ht =>
      iht tl htl t ht fun hls => h (.inl (.inr ⟨tl, htl, t, ht, hls⟩))]
    rfl
  | _ => simp_all [mapLs, symsTerm, bind, Except.bind]

end Self

end Why3

import Why3.Pattern.Rows
import Why3.Pattern.Column

/-!
# Values of the scrutinees, and the rows that cover them

The compiler looks at a scrutinee only where it is built by constructors. Any other
part may have every value of its type, two occurrences of one variable included.
-/

namespace Why3

open Lib Interp List

namespace Pattern

variable {α D : Type} {I : Interp D} {τ : TyVal} {S : DataSig}
variable {d : D} {cs : LSymbol} {ds : List D} {al : List Term} {ty : Ty}

/-- The values of a term when each part of it that no constructor builds has some
value of its type. -/
inductive Instance (I : Interp D) (τ : TyVal) : Term → D → Prop where
  | constr {a : List Attr} {cs : LSymbol} {al : List Term} {ty : Ty} {ds : List D}
      (hcs : 0 < cs.lsConstr) (hlen : al.length = ds.length)
      (hal : ∀ (i : ℕ) (t : Term) (d : D), al[i]? = some t → ds[i]? = some d → Instance I τ t d) :
      Instance I τ (.tapp a cs al (some ty)) (I.fn cs (ty.vMap τ) ds)
  | other {t : Term} {ty : Ty} {d : D} (ht : constrHead t = false) (hty : t.tTy = some ty)
      (hd : d ∈ I.carrier (ty.vMap τ)) : Instance I τ t d

def Instances (I : Interp D) (τ : TyVal) : List Term → List D → Prop :=
  Forall₂ (Instance I τ)

theorem forall₂_iff_getElem? {β γ : Type} {P : β → γ → Prop} {l : List β} {l' : List γ} :
    Forall₂ P l l' ↔ l.length = l'.length ∧
      ∀ (i : ℕ) b c, l[i]? = some b → l'[i]? = some c → P b c := by
  constructor
  · intro h
    refine ⟨h.length_eq, ?_⟩
    intro i b c hb hc
    obtain ⟨hi, rfl⟩ := List.getElem?_eq_some_iff.mp hb
    obtain ⟨hi', rfl⟩ := List.getElem?_eq_some_iff.mp hc
    exact Forall₂.get h hi hi'
  · rintro ⟨hlen, h⟩
    rw [forall₂_iff_get]
    refine ⟨hlen, ?_⟩
    intro i hi hi'
    exact h i _ _ (getElem?_eq_getElem hi) (getElem?_eq_getElem hi')

theorem instance_constr_iff {a : List Attr} (hcs : 0 < cs.lsConstr) :
    Instance I τ (.tapp a cs al (some ty)) d ↔
      ∃ ds, Instances I τ al ds ∧ d = I.fn cs (ty.vMap τ) ds := by
  constructor
  · intro h
    cases h with
    | @constr _ _ _ _ ds _ hlen hal =>
      exact ⟨ds, forall₂_iff_getElem?.mpr ⟨hlen, hal⟩, rfl⟩
    | other ht _ _ => simp [constrHead, hcs] at ht
  · rintro ⟨ds, hds, rfl⟩
    obtain ⟨hlen, hal⟩ := forall₂_iff_getElem?.mp hds
    exact .constr hcs hlen hal

theorem instance_other_iff {t : Term} (ht : constrHead t = false) (hty : t.tTy = some ty) :
    Instance I τ t d ↔ d ∈ I.carrier (ty.vMap τ) := by
  constructor
  · intro h
    cases h with
    | constr hcs _ _ => simp [constrHead, hcs] at ht
    | other _ hty' hd =>
      cases hty.symm.trans hty'
      exact hd
  · exact .other ht hty

section WellTyped

variable {Γ : List Ty} {t : Term} {ty : Ty}

theorem Instance.mem_carrier (hI : I.Sound) (ht : WellTyped S Γ t (some ty)) :
    ∀ {d}, Instance I τ t d → d ∈ I.carrier (ty.vMap τ) := by
  refine ht.constrInduction (P := fun t ty => ∀ {d}, Instance I τ t d → d ∈ I.carrier (ty.vMap τ))
    ?_ ?_ ty rfl
  · intro a cs al ts tl hl hcs hal d h
    obtain ⟨ds, hds, rfl⟩ := (instance_constr_iff (constr_pos hcs)).mp h
    rw [Ty.vMap_tyapp]
    refine hI.constr_mem (by rw [length_map, hl]) hcs ((typed_args_iff hl hcs).mp ?_)
    rw [Instances, forall₂_iff_getElem?] at hds
    rw [forall₂_iff_getElem?] at hal
    refine forall₂_iff_getElem?.mpr ⟨hal.1.symm.trans hds.1, ?_⟩
    intro i ty d hty hd
    have hi : i < al.length := hds.1 ▸ (List.getElem?_eq_some_iff.mp hd).1
    have hu : al[i]? = some al[i] := getElem?_eq_getElem hi
    exact (hal.2 i _ ty hu hty).2 (hds.2 i _ d hu hd)
  · intro t ty ht hno d h
    exact (instance_other_iff hno ht.tTy_eq).mp h

theorem Instances.typed (hI : I.Sound) {tyl : List Ty}
    (hal : Forall₂ (fun t ty => ∃ Γ, WellTyped S Γ t (some ty)) al tyl)
    (h : Instances I τ al ds) : I.Typed τ tyl ds := by
  induction hal generalizing ds with
  | nil =>
    cases h
    exact .nil
  | cons ht _ ih =>
    cases h with
    | cons hd hds =>
      obtain ⟨Γ, ht⟩ := ht
      exact .cons (hd.mem_carrier hI ht) (ih hds)

theorem exists_instance (hI : I.Sound) (ht : WellTyped S Γ t (some ty)) :
    ∃ d, Instance I τ t d := by
  refine ht.constrInduction (P := fun t _ => ∃ d, Instance I τ t d) ?_ ?_ ty rfl
  · intro a cs al ts tl hl hcs hal
    have hds : ∃ ds, Instances I τ al ds := by
      generalize cs.lsArgs.map (Ty.vMap (paramMap ts tl)) = tyl at hal
      induction hal with
      | nil => exact ⟨[], .nil⟩
      | cons h _ ih =>
        obtain ⟨d, hd⟩ := h.2
        obtain ⟨ds, hds⟩ := ih
        exact ⟨d :: ds, .cons hd hds⟩
    obtain ⟨ds, hds⟩ := hds
    exact ⟨_, (instance_constr_iff (constr_pos hcs)).mpr ⟨ds, hds, rfl⟩⟩
  · intro t ty ht hno
    obtain ⟨d, hd⟩ := hI.nonempty (ty.vMap τ)
    exact ⟨d, .other hno ht.tTy_eq hd⟩

theorem eval_instance (hI : I.Sound) {ρ : VSymbol → D} (hρ : I.TypedVal τ ρ) {b : List D}
    (hb : I.Typed τ Γ b) (ht : WellTyped S Γ t (some ty)) : Instance I τ t (I.eval τ ρ b t).1 := by
  refine ht.constrInduction (P := fun t _ => Instance I τ t (I.eval τ ρ b t).1) ?_ ?_ ty rfl
  · intro a cs al ts tl hl hcs hal
    rw [eval_tapp_some]
    refine (instance_constr_iff (constr_pos hcs)).mpr ⟨_, ?_, rfl⟩
    rw [Instances, forall₂_map_right_iff, forall₂_same]
    intro u hu
    obtain ⟨i, hi⟩ := mem_iff_getElem?.mp hu
    rw [forall₂_iff_getElem?] at hal
    have hi' := (List.getElem?_eq_some_iff.mp hi).1
    rw [hal.1] at hi'
    exact (hal.2 i u _ hi (getElem?_eq_getElem hi')).2
  · intro t ty ht hno
    exact .other hno ht.tTy_eq (ht.eval_mem hI hρ hb ty rfl).1

end WellTyped

/-! ## Covering -/

def Covers (I : Interp D) (τ : TyVal) (rl : List (Row α)) (ds : List D) : Prop :=
  ∃ row ∈ rl, I.matchPatList τ row.1 ds ≠ none

theorem covers_iff {rl : List (Row α)} (ρ : VSymbol → D) :
    Covers I τ rl ds ↔ evalRows I τ (fun _ _ => ()) ρ ds rl ≠ none := by
  rw [evalRows, ne_eq, findSome?_eq_none_iff]
  simp [Covers, evalRow]

section Columns

variable {mkLet : VSymbol → Term → α → α} {t : Term} {ty : Ty} {tyl : List Ty}
  {rl : List (Row α)} {d : D} {dtl : List D}

theorem letsRow_unit (ρ : VSymbol → D) (vl : List VSymbol) :
    LetsRow mkLet t (fun (_ : α) _ => ()) ρ d vl :=
  fun _ _ _ _ _ => rfl

/-- On a value built by `cs`, the matrix covers what its specialisation covers. -/
theorem covers_specialise (hI : I.Free S) {ts : TySymbol} {tl : List Ty}
    (hl : tl.length = ts.tsArgs.length) (hcs : cs ∈ S.constrs ts)
    (hds : I.Typed (paramMap ts (tl.map (Ty.vMap τ))) cs.lsArgs ds) {ql : List Pattern}
    (hql : ql.length = ds.length) (hrl : ∀ row ∈ rl, RowTyped S (.tyapp ts tl :: tyl) row) :
    Covers I τ rl (I.fn cs (.tyapp ts (tl.map (Ty.vMap τ))) ds :: dtl) ↔
      Covers I τ (rl.flatMap (onRow (specialise mkLet t cs ql))) (ds.reverse ++ dtl) := by
  rw [covers_iff fun _ => I.dflt, covers_iff fun _ => I.dflt,
    evalRows_specialise_matrix hI hl hcs hds rfl hql hrl fun row _ => letsRow_unit _ _]

/-- On a value that no constructor at the head of a row builds, the matrix covers
what its default rows cover. -/
theorem covers_defaults (hrl : ∀ row ∈ rl, RowTyped S (ty :: tyl) row)
    (hno : ∀ p, HeadOf p rl → ∀ c ∈ heads p, I.matchPat τ (papp c.1 c.2 ty) d = none) :
    Covers I τ rl (d :: dtl) ↔ Covers I τ (rl.flatMap (onRow (defaults mkLet t))) dtl := by
  rw [covers_iff fun _ => I.dflt, covers_iff fun _ => I.dflt,
    evalRows_defaults_matrix hrl (fun row _ => letsRow_unit _ _) hno]

end Columns

end Pattern

end Why3

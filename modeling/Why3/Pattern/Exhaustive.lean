import Why3.Pattern.Compile
import Why3.Pattern.Instance
import Why3.Pattern.PatApp
import Why3.Pattern.Weight

/-!
# The compiler decides exhaustiveness

On a well-typed matrix the compiler either returns a tree, and then every instance
of the scrutinees is matched by a row, or it fails with missing patterns, and then
some instance is not matched. If the constructors of the types are known then no
instance that the missing patterns match is matched by a row.
-/

namespace Why3

open Lib Interp List

namespace Pattern

variable {α D : Type}

/-- A type with the right numbers of arguments, all of whose symbols are in `K`. -/
def TyOk (K : TySymbol → Prop) (ty : Ty) : Prop := ty.saturated = true ∧ ∀ ts ∈ ty.syms, K ts

/-- The constructors of the types in `K` are found, and have arguments in `K`. -/
structure Answers (S : DataSig) (K : TySymbol → Prop)
    (get : TySymbol → Except Exn (Option (List LSymbol))) : Prop where
  gets : ∀ ts, K ts → Gets S get ts
  closed : ∀ ts, K ts → ∀ cs ∈ S.constrs ts, ∀ ty ∈ cs.lsArgs, ∀ ts' ∈ ty.syms, K ts'

def Exact (S : DataSig) (K : TySymbol → Prop)
    (get : TySymbol → Except Exn (Option (List LSymbol))) : Prop :=
  ∀ ts, K ts → get ts = .ok (some (S.constrs ts))

structure Matrix (S : DataSig) (K : TySymbol → Prop) (tl : List Term) (tyl : List Ty)
    (rl : List (Row α)) : Prop where
  terms : Forall₂ (fun t ty => ∃ Γ, WellTyped S Γ t (some ty)) tl tyl
  types : ∀ ty ∈ tyl, TyOk K ty
  rows : ∀ row ∈ rl, RowTyped S tyl row

structure Shape (S : DataSig) (tyl : List Ty) (pl : List Pattern) : Prop where
  types : pl.map patTy = tyl
  typed : ∀ p ∈ pl, PatTyped S p
  vars : varsList pl = []

def Missing (I : Interp D) (τ : TyVal) (tl : List Term) (rl : List (Row α)) (pl : List Pattern) :
    Prop :=
  ∀ ds, Instances I τ tl ds → I.matchPatList τ pl ds ≠ none → ¬ Covers I τ rl ds

/-- What a result of the compiler says about the matrix, when the values `V` are
looked at. The missing patterns are right if `exact` holds. -/
inductive Verdict (S : DataSig) (I : Interp D) (τ : TyVal) (exact : Prop) (tl : List Term)
    (tyl : List Ty) (rl : List (Row α)) (V : List D → Prop) {β : Type} : Except Exn β → Prop where
  | covered (b : β) (h : ∀ ds, V ds → Instances I τ tl ds → Covers I τ rl ds) :
      Verdict S I τ exact tl tyl rl V (.ok b)
  | missing {pl : List Pattern} {ds : List D} (hds : Instances I τ tl ds)
      (hno : ¬ Covers I τ rl ds) (hshape : Shape S tyl pl) (hpl : exact → Missing I τ tl rl pl) :
      Verdict S I τ exact tl tyl rl V (.error (.nonExhaustive pl))

variable {I : Interp D} {τ : TyVal} {S : DataSig} {K : TySymbol → Prop} {exact : Prop}
  {get : TySymbol → Except Exn (Option (List LSymbol))} {mkLet : VSymbol → Term → α → α}
  {compile : ℕ → List Term → List (Row α) → Except Exn α} {n fuel : ℕ} {c : Column α}
  {rl : List (Row α)} {t : Term} {al tl : List Term} {ty : Ty} {tyl tys : List Ty} {ts : TySymbol}
  {cs : LSymbol} {p : Pattern} {pl ql : List Pattern} {d : D} {ds : List D}

/-! ## Types -/

theorem TyOk.arg (h : TyOk K (.tyapp ts tys))
    (hclosed : ∀ cs ∈ S.constrs ts, ∀ ty ∈ cs.lsArgs, ∀ ts' ∈ ty.syms, K ts')
    (hcs : cs ∈ S.constrs ts) : ∀ ty ∈ cs.lsArgs.map (Ty.vMap (paramMap ts tys)), TyOk K ty := by
  intro ty' hty'
  obtain ⟨ty, hty, rfl⟩ := mem_map.mp hty'
  obtain ⟨hl, htys⟩ := (Ty.saturated_tyapp ts tys).mp h.1
  have hparam : ∀ v ∈ ty.freevars, paramMap ts tys v ∈ tys := by
    intro v hv
    obtain ⟨j, _, hj⟩ := exists_paramMap_eq hl (S.freevars hcs ty hty v hv)
    exact mem_of_getElem? hj
  refine ⟨Ty.saturated_vMap (S.saturated hcs ty hty) fun v hv => htys _ (hparam v hv), ?_⟩
  intro ts' hts'
  rcases (Ty.mem_syms_vMap _ _ _).mp hts' with hts' | ⟨v, hv, hts'⟩
  · exact hclosed cs hcs ty hty ts' hts'
  · exact h.2 ts' ((Ty.mem_syms_tyapp ts tys ts').mpr (.inr ⟨_, hparam v hv, hts'⟩))

section

variable (h : Matrix S K (t :: tl) (ty :: tyl) rl)
include h

theorem Matrix.head : ∃ Γ, WellTyped S Γ t (some ty) := by
  cases h.terms with
  | cons ht _ => exact ht

theorem Matrix.columnTyped : ColumnTyped S ty rl := by
  intro row hrow
  obtain ⟨p, pl, heq, hty, hp, _⟩ := (h.rows row hrow).cons
  exact ⟨p, pl, by rw [heq], hty, hp⟩

theorem Matrix.replace {atys : List Ty}
    (hal : Forall₂ (fun t ty => ∃ Γ, WellTyped S Γ t (some ty)) al atys)
    (hatys : ∀ ty ∈ atys, TyOk K ty) {rl' : List (Row α)}
    (hrl' : ∀ row ∈ rl', RowTyped S (atys ++ tyl) row) :
    Matrix S K (al ++ tl) (atys ++ tyl) rl' where
  terms := by
    cases h.terms with
    | cons _ htl => exact rel_append hal htl
  types := forall_mem_append.mpr ⟨hatys, fun ty hty => h.types ty (mem_cons_of_mem _ hty)⟩
  rows := hrl'

theorem Matrix.specialise (hget : Answers S K get) (hargs : ArgsOf S ty cs ql ts tys)
    (hal : Forall₂ (fun t ty => ∃ Γ, WellTyped S Γ t (some ty)) al (ql.map patTy)) :
    Matrix S K (al.reverse ++ tl) ((ql.map patTy).reverse ++ tyl)
      (rl.flatMap (onRow (specialise mkLet t cs ql))) := by
  have hrows : ∀ row ∈ rl, RowTyped S (.tyapp ts tys :: tyl) row := hargs.ty_eq ▸ h.rows
  have hok : TyOk K (.tyapp ts tys) := hargs.ty_eq ▸ h.types ty mem_cons_self
  have hts : K ts := hok.2 ts (by simp)
  refine h.replace (rel_reverse hal) ?_ ?_
  · intro ty' hty'
    rw [mem_reverse, hargs.types] at hty'
    exact hok.arg (hget.closed ts hts) hargs.mem ty' hty'
  · rw [hargs.types]
    exact fun row' hrow' => (specialise_matrix_rowTyped _ _ hargs.types hrows row' hrow').1

theorem Matrix.defaults : Matrix S K tl tyl (rl.flatMap (onRow (defaults mkLet t))) :=
  h.replace .nil (by simp) fun row' hrow' => (defaults_matrix_rowTyped h.rows row' hrow').1

end

/-! ## Missing patterns -/

theorem varsList_append (pl pl' : List Pattern) :
    varsList (pl ++ pl') = varsList pl ++ varsList pl' := by
  simp only [varsList_eq_flatMap, flatMap_append]

theorem contWitness_eq (cs : LSymbol) (ty : Ty) :
    ∀ (tyl : List Ty) (pl pl' acc : List Pattern), pl.length = tyl.length →
      contWitness cs ty acc tyl (pl ++ pl') =
        (patApp cs (pl.reverse ++ acc) ty >>= fun p => .ok (p :: pl'))
  | [], [], pl', acc, _ => by
    cases pl' <;> rfl
  | _ :: tyl, p :: pl, pl', acc, hl => by
    rw [cons_append, contWitness, contWitness_eq cs ty tyl pl pl' (p :: acc) (by simpa using hl)]
    simp
  | [], _ :: _, _, _, hl | _ :: _, [], _, _, hl => by simp at hl

theorem varsList_wilds (f : Ty → Ty) (tyl : List Ty) :
    varsList (tyl.map fun ty => pwild (f ty)) = [] := by
  rw [varsList_eq_flatMap, flatMap_eq_nil_iff]
  intro p hp
  obtain ⟨ty, _, rfl⟩ := mem_map.mp hp
  rfl

theorem patTyped_wilds (hl : tys.length = ts.tsArgs.length) (hcs : cs ∈ S.constrs ts) :
    PatTyped S (papp cs (cs.lsArgs.map fun ty => pwild (ty.vMap (paramMap ts tys)))
      (.tyapp ts tys)) := by
  refine .papp hl hcs ?_ ?_ ?_
  · rw [map_map]
    rfl
  · rw [varsList_wilds]
    exact nodup_nil
  · intro p hp
    obtain ⟨ty, _, rfl⟩ := mem_map.mp hp
    exact .pwild _

/-- The first missing pattern, when the default rows are looked at. -/
theorem wildWitness_total (hc : ColumnSpec S mkLet t ty rl c) (hok : TyOk K ty) :
    ∃ w, wildWitness c.css c.types c.ty = .ok w ∧ w.patTy = ty ∧ PatTyped S w ∧ w.vars = [] ∧
      (w = pwild ty ∧ (∀ cs, c.css.mem cs = true → c.types.mem cs = true) ∨
        ∃ ts tys cs pl, ty = .tyapp ts tys ∧ tys.length = ts.tsArgs.length ∧
          cs ∈ S.constrs ts ∧ c.types.mem cs = false ∧ w = papp cs pl ty) := by
  unfold wildWitness
  rw [hc.ty_eq]
  cases hf : c.css.bindings.find? fun b => !c.types.mem b.1 with
  | none =>
    refine ⟨pwild ty, rfl, rfl, .pwild ty, rfl, .inl ⟨rfl, ?_⟩⟩
    intro cs hcs
    obtain ⟨u, hu⟩ := (TagMap.mem_eq_true_iff _ _).mp hcs
    rw [TagMap.find?_eq_some_iff] at hu
    simpa using find?_eq_none.mp hf _ hu
  | some b =>
    obtain ⟨cs, u⟩ := b
    have hmem := mem_of_find?_eq_some hf
    have hnot : c.types.mem cs = false := by simpa using find?_some hf
    have hcss : c.css.mem cs = true :=
      (TagMap.mem_eq_true_iff _ _).mpr ⟨u, (TagMap.find?_eq_some_iff _ _ _).mpr hmem⟩
    obtain ⟨ts, tys, rfl, hcs⟩ := hc.signature.css_mem hcss
    obtain ⟨hl, _⟩ := (Ty.saturated_tyapp ts tys).mp hok.1
    obtain ⟨s, hs₁, hs₂⟩ := tyMatchExn_value hl
    have hargs : (cs.lsArgs.map fun ty => pwild (tyInst s ty)) =
        cs.lsArgs.map fun ty => pwild (ty.vMap (paramMap ts tys)) := by
      apply map_congr_left
      intro ty hty
      rw [tyInst_paramMap hs₂ (S.freevars hcs ty hty)]
    have hw := patTyped_wilds hl hcs
    refine ⟨_, ?_, rfl, hw, ?_, .inr ⟨ts, tys, cs, _, rfl, hl, hcs, hnot, rfl⟩⟩
    · simp only [S.value hcs, hs₁, hargs, bind, Except.bind]
      exact hw.patApp_eq
    · rw [vars, varsList_wilds]

/-! ## Verdicts on some values -/

theorem Verdict.bind {V W : List D → Prop} {β γ : Type} {r : Except Exn β} {f : β → Except Exn γ}
    (h : Verdict S I τ exact tl tyl rl V r)
    (hf : ∀ b, (∀ ds, V ds → Instances I τ tl ds → Covers I τ rl ds) →
      Verdict S I τ exact tl tyl rl W (f b)) : Verdict S I τ exact tl tyl rl W (r >>= f) := by
  cases h with
  | covered b h => exact hf b h
  | missing hds hno hshape hpl => exact .missing hds hno hshape hpl

def OnHead (P : D → Prop) (ds : List D) : Prop := ∃ d dtl, ds = d :: dtl ∧ P d

def NoHead (I : Interp D) (τ : TyVal) (ty : Ty) (rl : List (Row α)) (d : D) : Prop :=
  ∀ p, HeadOf p rl → ∀ b ∈ heads p, I.matchPat τ (papp b.1 b.2 ty) d = none

def Misses (S : DataSig) (ty : Ty) (c : Column α) : Prop :=
  c.types.bindings = [] ∨
    ∃ ts tys cs, ty = .tyapp ts tys ∧ cs ∈ S.constrs ts ∧ c.types.mem cs = false

theorem noHead_of_empty (hc : ColumnSpec S mkLet t ty rl c) (hempty : c.types.bindings = [])
    (d : D) : NoHead I τ ty rl d := by
  intro p hp b hb
  have hmem := hc.heads p hp b hb
  rw [TagMap.mem, TagMap.find?, hempty] at hmem
  cases hmem

/-- The values that the first missing pattern matches are built by no constructor at
the head of a row. -/
theorem wildWitness_noHead (hc : ColumnSpec S mkLet t ty rl c) (hrl : ColumnTyped S ty rl)
    (hfree : I.Free S) (hok : TyOk K ty) (hbare : c.bare = false) (hmiss : Misses S ty c)
    {w : Pattern} (hw : wildWitness c.css c.types c.ty = .ok w) (hd : I.matchPat τ w d ≠ none) :
    NoHead I τ ty rl d := by
  obtain ⟨w', hw', _, htyped, _, hcases⟩ := wildWitness_total hc hok
  obtain rfl : w' = w := Except.ok.inj (hw'.symm.trans hw)
  rcases hcases with ⟨rfl, hall⟩ | ⟨ts, tys, cs, pl, rfl, hl, hcs, hnot, rfl⟩
  · rcases hmiss with hempty | ⟨ts, tys, cs, hty, hcs, hnot⟩
    · exact noHead_of_empty hc hempty d
    · rw [hall cs (hc.signature.all_mem hbare hty hcs)] at hnot
      cases hnot
  · unfold matchPat at hd
    split at hd
    · next hex =>
        obtain ⟨ds, hds, rfl⟩ := hex
        cases htyped with
        | papp _ _ hargs _ _ =>
          rw [typed_patTy_iff hl hcs hargs] at hds
          rw [Ty.vMap_tyapp]
          exact hc.matchPat_heads hrl hfree rfl hl hcs hnot hds
    · exact absurd rfl hd

theorem Shape.cons (h : Shape S tyl pl) (hp : PatTyped S p) (hvars : p.vars = [])
    (hty : p.patTy = ty) : Shape S (ty :: tyl) (p :: pl) where
  types := by rw [map_cons, hty, h.types]
  typed := forall_mem_cons.mpr ⟨hp, h.typed⟩
  vars := by rw [varsList, hvars, h.vars, nil_append]

theorem matchPatList_cons_ne_none :
    I.matchPatList τ (p :: pl) (d :: ds) ≠ none ↔
      I.matchPat τ p d ≠ none ∧ I.matchPatList τ pl ds ≠ none := by
  rw [matchPatList_cons]
  cases I.matchPat τ p d <;> cases I.matchPatList τ pl ds <;> simp

theorem instances_reverse_append (h : Instances I τ (al.reverse ++ tl) ds) :
    ∃ ds₁ dtl, ds = ds₁.reverse ++ dtl ∧ Instances I τ al ds₁ ∧ Instances I τ tl dtl := by
  refine ⟨(ds.take al.reverse.length).reverse, ds.drop al.reverse.length, ?_, ?_, ?_⟩
  · rw [reverse_reverse, take_append_drop]
  · have htake := forall₂_take_append ds al.reverse tl h.flip
    have hrev := rel_reverse htake.flip
    rwa [reverse_reverse] at hrev
  · exact (forall₂_drop_append ds al.reverse tl h.flip).flip

theorem matchPatList_reverse_append_ne_none {pl' : List Pattern} {ds' : List D}
    (h : I.matchPatList τ pl.reverse ds ≠ none) (h' : I.matchPatList τ pl' ds' ≠ none) :
    I.matchPatList τ (pl ++ pl') (ds.reverse ++ ds') ≠ none := by
  obtain ⟨β, hβ⟩ := Option.ne_none_iff_exists'.mp h
  have hlen := matchPatList_length hβ
  rw [matchPatList_append (by simpa using hlen)]
  have hrev := matchPatList_reverse (I := I) (τ := τ) pl.reverse ds
  rw [hβ, reverse_reverse] at hrev
  cases hm : I.matchPatList τ pl ds.reverse with
  | none =>
    rw [hm] at hrev
    cases hrev
  | some β' =>
    obtain ⟨β'', hβ''⟩ := Option.ne_none_iff_exists'.mp h'
    rw [hβ'']
    exact Option.some_ne_none _

def BuiltBy (I : Interp D) (τ : TyVal) (cs : LSymbol) (ts : TySymbol) (tys : List Ty)
    (al : List Term) (d : D) : Prop :=
  ∃ ds, Instances I τ al ds ∧ d = I.fn cs (.tyapp ts (tys.map (Ty.vMap τ))) ds

/-- The missing patterns for the arguments of `cs` are put back under `cs`. -/
theorem Shape.constr (hargs : ArgsOf S ty cs ql ts tys)
    (h : Shape S ((ql.map patTy).reverse ++ tyl) pl) :
    ∃ pl₁ pl₂, pl = pl₁ ++ pl₂ ∧
      contWitness cs ty [] cs.lsArgs pl = .ok (papp cs pl₁.reverse ty :: pl₂) ∧
      Shape S (ty :: tyl) (papp cs pl₁.reverse ty :: pl₂) := by
  obtain ⟨pl₁, pl₂, rfl, h₁, h₂⟩ := map_eq_append_iff.mp h.types
  have hvars := h.vars
  rw [varsList_append, append_eq_nil_iff] at hvars
  have htyped := forall_mem_append.mp h.typed
  have hvars₁ : varsList pl₁.reverse = [] := by
    rw [varsList_eq_flatMap, flatMap_eq_nil_iff] at hvars ⊢
    exact fun p hp => hvars.1 p (mem_reverse.mp hp)
  have htypes : pl₁.reverse.map patTy = cs.lsArgs.map (Ty.vMap (paramMap ts tys)) := by
    rw [map_reverse, h₁, reverse_reverse, hargs.types]
  have hpat : PatTyped S (papp cs pl₁.reverse ty) := by
    rw [hargs.ty_eq]
    refine .papp hargs.length hargs.mem htypes ?_ ?_
    · rw [hvars₁]
      exact nodup_nil
    · exact fun p hp => htyped.1 p (mem_reverse.mp hp)
  have hlen : pl₁.length = cs.lsArgs.length := by
    simpa using congrArg List.length htypes
  refine ⟨pl₁, pl₂, rfl, ?_, ?_⟩
  · rw [contWitness_eq cs ty cs.lsArgs pl₁ pl₂ [] hlen, append_nil, hpat.patApp_eq]
    rfl
  · exact Shape.cons ⟨h₂, htyped.2, hvars.2⟩ hpat (by rw [Pattern.vars, hvars₁]) rfl

/-! ## One step -/

theorem exists_typed (hI : I.Sound) (τ : TyVal) (tyl : List Ty) : ∃ ds, I.Typed τ tyl ds := by
  induction tyl with
  | nil => exact ⟨[], .nil⟩
  | cons ty tyl ih =>
    obtain ⟨ds, hds⟩ := ih
    obtain ⟨d, hd⟩ := hI.nonempty (ty.vMap τ)
    exact ⟨d :: ds, .cons hd hds⟩

def Decides (S : DataSig) (K : TySymbol → Prop) (I : Interp D) (τ : TyVal) (exact : Prop)
    (fuel : ℕ) (compile : ℕ → List Term → List (Row α) → Except Exn α) : Prop :=
  ∀ {n tl tyl} {rl : List (Row α)}, Matrix S K tl tyl rl → fuelFor tl.length rl ≤ fuel →
    Verdict S I τ exact tl tyl rl (fun _ => True) (compile n tl rl)

theorem constrHead_eq_true (h : constrHead t = true) :
    ∃ a cs al o, t = .tapp a cs al o ∧ 0 < cs.lsConstr := by
  unfold constrHead at h
  split at h
  · next a cs al o => exact ⟨a, cs, al, o, rfl, by simpa using h⟩
  · cases h

section

variable (hrec : Decides S K I τ exact fuel compile) (hc : ColumnSpec S mkLet t ty rl c)
  (h : Matrix S K (t :: tl) (ty :: tyl) rl) (hfuel : fuelFor (tl.length + 1) rl ≤ fuel + 1)
include hrec hc h hfuel

/-- The default rows decide about the values that no constructor at the head of a
row builds. -/
theorem Decides.wilds (hfree : I.Free S) (hbare : exact → c.bare = false) (hmiss : Misses S ty c)
    (hd : Instance I τ t d) (hno : NoHead I τ ty rl d) :
    Verdict S I τ exact (t :: tl) (ty :: tyl) rl (OnHead (NoHead I τ ty rl))
      (compWilds compile c tl n) := by
  have hfuel' := fuelFor_defaults mkLet t tl.length rl
  have hrec : Verdict S I τ exact tl tyl _ (fun _ => True)
      (compile n tl (rl.flatMap (onRow (defaults mkLet t)))) := hrec h.defaults (by omega)
  have hok := h.types ty mem_cons_self
  unfold compWilds
  rw [hc.wilds]
  generalize hrl' : rl.flatMap (onRow (defaults mkLet t)) = rl' at hrec ⊢
  have hcovers : ∀ d dtl, NoHead I τ ty rl d → (Covers I τ rl (d :: dtl) ↔ Covers I τ rl' dtl) := by
    intro d dtl hd
    rw [← hrl']
    exact covers_defaults h.rows hd
  generalize compile n tl rl' = r at hrec ⊢
  cases hrec with
  | covered b hcov =>
    refine .covered b ?_
    rintro _ ⟨d', dtl, rfl, hd'⟩ hds
    cases hds with
    | cons _ hdtl => exact (hcovers d' dtl hd').mpr (hcov dtl trivial hdtl)
  | @missing pl dtl hdtl hnot hshape hpl =>
    obtain ⟨w, hw, hwty, hwtyped, hwvars, _⟩ := wildWitness_total hc hok
    have hres : onNonExhaustive (fun pl => do .ok ((← wildWitness c.css c.types c.ty) :: pl))
        (.error (.nonExhaustive pl) : Except Exn α) = .error (.nonExhaustive (w :: pl)) := by
      simp [onNonExhaustive, hw, bind, Except.bind]
    rw [hres]
    refine .missing (.cons hd hdtl) ?_ (hshape.cons hwtyped hwvars hwty) ?_
    · rwa [hcovers d dtl hno]
    · intro hexact ds hds hmatch
      cases hds with
      | @cons _ d' _ dtl' _ hdtl' =>
        obtain ⟨hw', hpl'⟩ := matchPatList_cons_ne_none.mp hmatch
        have hno' := wildWitness_noHead hc h.columnTyped hfree hok (hbare hexact) hmiss hw hw'
        rw [hcovers d' dtl' hno']
        exact hpl hexact dtl' hdtl' hpl'

theorem Decides.cases (hget : Answers S K get) (hI : I.Sound) (hfree : I.Free S)
    (hql : c.types.find? cs = some ql) (hargs : ArgsOf S ty cs ql ts tys)
    (hal : Forall₂ (fun t ty => ∃ Γ, WellTyped S Γ t (some ty)) al (ql.map patTy))
    (hinst : ∀ d, BuiltBy I τ cs ts tys al d → Instance I τ t d)
    (hcompat : ∀ ds, I.Typed (paramMap ts (tys.map (Ty.vMap τ))) cs.lsArgs ds →
      Instance I τ t (I.fn cs (.tyapp ts (tys.map (Ty.vMap τ))) ds) → Instances I τ al ds) :
    Verdict S I τ exact (t :: tl) (ty :: tyl) rl (OnHead (BuiltBy I τ cs ts tys al))
      (compCases compile c tl n cs al) := by
  have hfuel' : fuelFor (al.reverse ++ tl).length (rl.flatMap (onRow (specialise mkLet t cs ql))) ≤
      fuel := by
    obtain ⟨p, hp, hmem⟩ := hc.head cs ql hql
    have hlen := fuelFor_specialise mkLet t hp hmem tl.length
    have hal' := hal.length_eq
    rw [length_map] at hal'
    rw [length_append, length_reverse, hal']
    omega
  have hrec := hrec (n := n) (h.specialise hget hargs hal) hfuel'
  have hrows : ∀ row ∈ rl, RowTyped S (.tyapp ts tys :: tyl) row := hargs.ty_eq ▸ h.rows
  have htyped : ∀ ds, Instances I τ al ds →
      I.Typed (paramMap ts (tys.map (Ty.vMap τ))) cs.lsArgs ds := by
    intro ds hds
    rw [← typed_patTy_iff hargs.length hargs.mem hargs.types]
    exact hds.typed hI hal
  have hlen : ∀ ds, I.Typed (paramMap ts (tys.map (Ty.vMap τ))) cs.lsArgs ds →
      ql.length = ds.length := by
    intro ds hds
    have hlen' := congrArg List.length hargs.types
    rw [length_map, length_map] at hlen'
    rw [hlen', hds.length_eq]
  unfold compCases
  rw [hc.cases cs ql hql, hc.ty_eq]
  simp only
  generalize hrl' : rl.flatMap (onRow (specialise mkLet t cs ql)) = rl' at hrec ⊢
  have hcovers : ∀ ds dtl, I.Typed (paramMap ts (tys.map (Ty.vMap τ))) cs.lsArgs ds →
      (Covers I τ rl (I.fn cs (.tyapp ts (tys.map (Ty.vMap τ))) ds :: dtl) ↔
        Covers I τ rl' (ds.reverse ++ dtl)) := by
    intro ds dtl hds
    rw [← hrl']
    exact covers_specialise hfree hargs.length hargs.mem hds (hlen ds hds) hrows
  generalize compile n (al.reverse ++ tl) rl' = r at hrec ⊢
  cases hrec with
  | covered b hcov =>
    refine .covered b ?_
    rintro _ ⟨_, dtl, rfl, ds, hds, rfl⟩ hinsts
    cases hinsts with
    | cons _ hdtl =>
      rw [hcovers ds dtl (htyped ds hds)]
      exact hcov _ trivial (rel_append (rel_reverse hds) hdtl)
  | @missing pl ds₀ hds₀ hnot hshape hpl =>
    obtain ⟨ds, dtl, rfl, hds, hdtl⟩ := instances_reverse_append hds₀
    obtain ⟨pl₁, pl₂, rfl, hcont, hshape'⟩ := Shape.constr hargs hshape
    have hres : onNonExhaustive (contWitness cs ty [] cs.lsArgs)
        (.error (.nonExhaustive (pl₁ ++ pl₂)) : Except Exn α) =
          .error (.nonExhaustive (papp cs pl₁.reverse ty :: pl₂)) := by
      simp [onNonExhaustive, hcont, bind, Except.bind]
    rw [hres]
    refine .missing (.cons (hinst _ ⟨ds, hds, rfl⟩) hdtl) ?_ hshape' ?_
    · rwa [hcovers ds dtl (htyped ds hds)]
    · intro hexact ds' hds' hmatch
      cases hds' with
      | @cons _ d' _ dtl' hd' hdtl' =>
        obtain ⟨hhead, hrest⟩ := matchPatList_cons_ne_none.mp hmatch
        have hpat := hshape'.typed _ mem_cons_self
        rw [hargs.ty_eq] at hhead hpat
        cases hpat with
        | papp _ _ htypes _ _ =>
          have hd'' := hhead
          unfold matchPat at hd''
          split at hd''
          · next hex =>
              obtain ⟨ds₁, hds₁, rfl⟩ := hex
              rw [typed_patTy_iff hargs.length hargs.mem htypes] at hds₁
              rw [Ty.vMap_tyapp, matchPat_papp hargs.length hfree hargs.mem htypes hds₁]
                at hhead
              rw [Ty.vMap_tyapp] at hd' ⊢
              rw [hcovers ds₁ dtl' hds₁]
              refine hpl hexact _ ?_ (matchPatList_reverse_append_ne_none hhead hrest)
              exact rel_append (rel_reverse (hcompat ds₁ hds₁ hd')) hdtl'
          · exact absurd rfl hd''

variable (hget : Answers S K get) (hI : I.Sound) (hfree : I.Free S) (hbare : exact → c.bare = false)
include hget hI hfree hbare

theorem compTree_case_verdict (hne : c.types.bindings ≠ []) (ht : constrHead t = false)
    (mkCase : Term → List (Pattern × α) → α) :
    Verdict S I τ exact (t :: tl) (ty :: tyl) rl (fun _ => True) (do
      let base ← compBase compile c tl n
      let bl ← c.cslist.foldlM (compBranch compile c tl n) base
      .ok (mkCase t bl)) := by
  obtain ⟨Γ, htyped⟩ := h.head
  obtain ⟨⟨cs₀, ql₀⟩, hcs₀⟩ := exists_mem_of_ne_nil _ hne
  obtain ⟨ts, tys, hargs₀⟩ := hc.argsOf cs₀ ql₀ ((TagMap.find?_eq_some_iff _ _ _).mpr hcs₀)
  have hty := hargs₀.ty_eq
  have hl : (tys.map (Ty.vMap τ)).length = ts.tsArgs.length := by
    rw [length_map, hargs₀.length]
  have hinst : ∀ d, Instance I τ t d ↔ d ∈ I.carrier (.tyapp ts (tys.map (Ty.vMap τ))) := by
    intro d
    rw [instance_other_iff ht htyped.tTy_eq, hty, Ty.vMap_tyapp]
  have hbuilt : ∀ cs ∈ S.constrs ts, ∀ ds,
      I.Typed (paramMap ts (tys.map (Ty.vMap τ))) cs.lsArgs ds →
      Instance I τ t (I.fn cs (.tyapp ts (tys.map (Ty.vMap τ))) ds) :=
    fun cs hcs ds hds => (hinst _).mpr (hI.constr_mem hl hcs hds)
  -- the variables of a branch may have all values of their types
  have hfresh : ∀ (ql : List Pattern) ds, Instances I τ ((freshVars n ql).map (.tvar [])) ds ↔
      I.Typed τ (ql.map patTy) ds := by
    intro ql ds
    rw [← map_vsTy_freshVars n ql, Instances, Typed, forall₂_map_left_iff, forall₂_map_left_iff]
    have hiff : ∀ (v : VSymbol) (d : D), Instance I τ (.tvar [] v) d ↔
        d ∈ I.carrier (v.vsTy.vMap τ) := fun v d => instance_other_iff rfl rfl
    simp only [hiff]
  have hbase : Verdict S I τ exact (t :: tl) (ty :: tyl) rl
      (OnHead fun d => ∃ cs ∈ S.constrs ts, c.types.mem cs = false ∧
        ∃ ds, I.Typed (paramMap ts (tys.map (Ty.vMap τ))) cs.lsArgs ds ∧
          I.fn cs (.tyapp ts (tys.map (Ty.vMap τ))) ds = d)
      (compBase compile c tl n) := by
    unfold compBase
    split
    · next hall =>
        refine .covered [] ?_
        rintro _ ⟨d, dtl, rfl, cs, hcs, hnot, _⟩
        rw [(hc.noWilds_iff hty hne).mp hall cs hcs] at hnot
        cases hnot
    · next hnot =>
        rw [hc.noWilds_iff hty hne] at hnot
        push Not at hnot
        obtain ⟨cs, hcs, hmem⟩ := hnot
        have hmem' : c.types.mem cs = false := by simpa using hmem
        obtain ⟨ds, hds⟩ := exists_typed hI (paramMap ts (tys.map (Ty.vMap τ))) cs.lsArgs
        refine (hrec.wilds hc h hfuel hfree hbare (.inr ⟨ts, tys, cs, hty, hcs, hmem'⟩)
          (hbuilt cs hcs ds hds) ?_).bind ?_
        · exact hc.matchPat_heads h.columnTyped hfree hty hargs₀.length hcs hmem' hds
        · intro a hcov
          refine .covered _ ?_
          rintro _ ⟨_, dtl, rfl, cs', hcs', hmem', ds', hds', rfl⟩
          refine hcov _ ⟨_, dtl, rfl, ?_⟩
          exact hc.matchPat_heads h.columnTyped hfree hty hargs₀.length hcs' hmem' hds'
  have hbranches : ∀ (l : List (LSymbol × List Pattern)) (base : List (Pattern × α)),
      (∀ b ∈ l, b ∈ c.cslist) → Verdict S I τ exact (t :: tl) (ty :: tyl) rl
        (fun ds => ∃ b ∈ l, OnHead (BuiltBy I τ b.1 ts tys ((freshVars n b.2).map (.tvar []))) ds)
        (l.foldlM (compBranch compile c tl n) base) := by
    intro l
    induction l with
    | nil =>
      intro base _
      exact .covered base (by simp)
    | cons b l ih =>
      intro base hmem
      rw [forall_mem_cons] at hmem
      have hql := (hc.populated.mem_iff b.1 b.2).mp hmem.1
      obtain ⟨ts', tys', hargs⟩ := hc.argsOf b.1 b.2 hql
      cases hty.symm.trans hargs.ty_eq
      rw [foldlM_cons]
      have hcase : _ → _ → _ → Verdict S I τ exact (t :: tl) (ty :: tyl) rl
          (OnHead (BuiltBy I τ b.1 ts tys ((freshVars n b.2).map (.tvar []))))
          (compCases compile c tl (n + b.2.length) b.1 ((freshVars n b.2).map (.tvar []))) :=
        hrec.cases hc h hfuel hget hI hfree hql hargs
      specialize hcase ?_ ?_ ?_
      rotate_left 3
      · have hhead : Verdict S I τ exact (t :: tl) (ty :: tyl) rl
            (OnHead (BuiltBy I τ b.1 ts tys ((freshVars n b.2).map (.tvar []))))
            (compBranch compile c tl n base b) := by
          refine hcase.bind ?_
          intro a hcov
          rw [hc.ty_eq, (patTyped_freshVars hargs n).patApp_eq]
          exact .covered _ hcov
        refine hhead.bind ?_
        intro base' hcov
        have hl' := ih base' hmem.2
        generalize l.foldlM (compBranch compile c tl n) base' = r at hl' ⊢
        cases hl' with
        | covered bl hcov' =>
          refine .covered bl ?_
          rintro ds ⟨b', hb', hds⟩ hinsts
          rcases mem_cons.mp hb' with rfl | hb'
          · exact hcov ds hds hinsts
          · exact hcov' ds ⟨b', hb', hds⟩ hinsts
        | missing hds hno hshape hpl => exact .missing hds hno hshape hpl
      · rw [← map_vsTy_freshVars n b.2, forall₂_map_left_iff, forall₂_map_right_iff, forall₂_same]
        exact fun v _ => ⟨[], .tvar [] v⟩
      · rintro d ⟨ds, hds, rfl⟩
        rw [hfresh, typed_patTy_iff hargs.length hargs.mem hargs.types] at hds
        exact hbuilt b.1 hargs.mem ds hds
      · intro ds hds _
        rw [hfresh, typed_patTy_iff hargs.length hargs.mem hargs.types]
        exact hds
  refine hbase.bind fun base hcov₁ => (hbranches c.cslist base fun _ hb => hb).bind ?_
  intro bl hcov₂
  refine .covered _ ?_
  intro ds _ hds
  cases hds with
  | @cons _ d _ dtl hd hdtl =>
    obtain ⟨cs, hcs, ds', hds', rfl⟩ :=
      hfree.cover hl (ne_nil_of_mem hargs₀.mem) ((hinst d).mp hd)
    cases htypes : c.types.find? cs with
    | none =>
      have hnot : c.types.mem cs = false := by rw [TagMap.mem, htypes]; rfl
      exact hcov₁ _ ⟨_, dtl, rfl, cs, hcs, hnot, ds', hds', rfl⟩ (.cons hd hdtl)
    | some ql =>
      have hin : (cs, ql) ∈ c.cslist := (hc.populated.mem_iff cs ql).mpr htypes
      obtain ⟨ts', tys', hargs⟩ := hc.argsOf cs ql htypes
      cases hty.symm.trans hargs.ty_eq
      refine hcov₂ _ ⟨(cs, ql), hin, _, dtl, rfl, ds', ?_, rfl⟩ (.cons hd hdtl)
      rw [hfresh, typed_patTy_iff hargs.length hargs.mem hargs.types]
      exact hds'

theorem compTree_verdict (mkCase : Term → List (Pattern × α) → α) :
    Verdict S I τ exact (t :: tl) (ty :: tyl) rl (fun _ => True)
      (compTree compile c tl mkCase n t) := by
  obtain ⟨Γ, htyped⟩ := h.head
  obtain ⟨d₀, hd₀⟩ := exists_instance (I := I) (τ := τ) hI htyped
  -- a verdict on the instances of `t` is one on all values
  have hall : ∀ {P : D → Prop} {r : Except Exn α}, (∀ d, Instance I τ t d → P d) →
      Verdict S I τ exact (t :: tl) (ty :: tyl) rl (OnHead P) r →
      Verdict S I τ exact (t :: tl) (ty :: tyl) rl (fun _ => True) r := by
    intro P r hP hr
    cases hr with
    | covered b hcov =>
      refine .covered b ?_
      intro ds _ hds
      cases hds with
      | cons hd hdtl => exact hcov _ ⟨_, _, rfl, hP _ hd⟩ (.cons hd hdtl)
    | missing hds hno hshape hpl => exact .missing hds hno hshape hpl
  unfold compTree
  split
  · next hempty =>
      rw [List.isEmpty_iff] at hempty
      exact hall (fun d _ => noHead_of_empty hc hempty d)
        (hrec.wilds hc h hfuel hfree hbare (.inl hempty) hd₀ (noHead_of_empty hc hempty d₀))
  · next hempty =>
      rw [List.isEmpty_iff] at hempty
      split
      · next cs al hcs =>
          obtain ⟨attrs, o, rfl, hpos⟩ := constrApp?_eq_some hcs
          obtain ⟨ts, tys, rfl, hl, hmem, rfl, hal⟩ := htyped.constr hpos
          have hinst : ∀ d, Instance I τ (.tapp attrs cs al (some (.tyapp ts tys))) d ↔
              BuiltBy I τ cs ts tys al d := by
            intro d
            rw [instance_constr_iff hpos, Ty.vMap_tyapp]
            rfl
          have hal' := hal.imp fun t ty (ht : WellTyped S Γ t (some ty)) =>
            (⟨Γ, ht⟩ : ∃ Γ, WellTyped S Γ t (some ty))
          have htypes : ∀ ds, Instances I τ al ds →
              I.Typed (paramMap ts (tys.map (Ty.vMap τ))) cs.lsArgs ds :=
            fun ds hds => (typed_args_iff hl hmem).mp (hds.typed hI hal')
          split
          · next hin =>
              obtain ⟨ql, hql⟩ := (TagMap.mem_eq_true_iff _ _).mp hin
              obtain ⟨ts', tys', hargs⟩ := hc.argsOf cs ql hql
              cases hargs.ty_eq
              refine hall (fun d hd => (hinst d).mp hd)
                (hrec.cases hc h hfuel hget hI hfree hql hargs ?_ (fun d => (hinst d).mpr) ?_)
              · rw [hargs.types]
                exact hal'
              · intro ds hds hd
                obtain ⟨ds', hds', heq⟩ := (hinst _).mp hd
                rwa [hfree.inj (by rw [length_map, hl]) hmem hds (htypes ds' hds') heq]
          · next hin =>
              have hnot : c.types.mem cs = false := by simpa using hin
              have hno : ∀ d, Instance I τ (.tapp attrs cs al (some (.tyapp ts tys))) d →
                  NoHead I τ (.tyapp ts tys) rl d := by
                intro d hd
                obtain ⟨ds, hds, rfl⟩ := (hinst d).mp hd
                exact hc.matchPat_heads h.columnTyped hfree rfl hl hmem hnot (htypes ds hds)
              exact hall hno (hrec.wilds hc h hfuel hfree hbare
                (.inr ⟨ts, tys, cs, rfl, hmem, hnot⟩) hd₀ (hno d₀ hd₀))
      · next hnone =>
          refine compTree_case_verdict hrec hc h hfuel hget hI hfree hbare hempty ?_ mkCase
          by_contra hhead
          rw [Bool.not_eq_false] at hhead
          obtain ⟨attrs, cs, al, o, rfl, hpos⟩ := constrHead_eq_true hhead
          obtain ⟨ts, tys, hty, _, hmem, _, _⟩ := htyped.constr hpos
          have hisC := hc.signature.constr hty hmem
          simp [constrApp?, hisC] at hnone

end

/-! ## The compiler -/

theorem columnConstrs_bare (hexact : Exact S K get) (hok : TyOk K ty) {bare : Bool}
    {css : TagMap LSymbol Unit} (h : columnConstrs get ty = .ok (bare, css)) : bare = false := by
  cases ty with
  | tyvar v =>
    simp only [columnConstrs, Except.ok.injEq, Prod.mk.injEq] at h
    exact h.1.symm
  | tyapp ts tl =>
    have hts := hexact ts (hok.2 ts (by simp))
    simp only [columnConstrs, hts, bind, Except.bind, Except.ok.injEq, Prod.mk.injEq] at h
    exact h.1.symm

theorem mapM_pwild (h : Forall₂ (fun t ty => ∃ Γ, WellTyped S Γ t (some ty)) tl tyl) :
    (tl.mapM fun t => do .ok (pwild (← t.tType)) : Except Exn (List Pattern)) =
        .ok (tyl.map pwild) ∧ Shape S tyl (tyl.map pwild) := by
  induction h with
  | nil => exact ⟨rfl, rfl, by simp, rfl⟩
  | @cons t ty tl tyl ht _ ih =>
    obtain ⟨Γ, ht⟩ := ht
    refine ⟨?_, ih.2.cons (.pwild ty) rfl rfl⟩
    rw [mapM_cons, ih.1]
    simp [Term.tType, ht.tTy_eq, bind, Except.bind, pure, Except.pure]

section

variable (hI : I.Sound) (h : Forall₂ (fun t ty => ∃ Γ, WellTyped S Γ t (some ty)) tl tyl)
include hI h

theorem exists_instances : ∃ ds, Instances I τ tl ds := by
  induction h with
  | nil => exact ⟨[], .nil⟩
  | cons ht _ ih =>
    obtain ⟨Γ, ht⟩ := ht
    obtain ⟨ds, hds⟩ := ih
    obtain ⟨d, hd⟩ := exists_instance (I := I) (τ := τ) hI ht
    exact ⟨d :: ds, .cons hd hds⟩

theorem verdict_nil {β : Type} :
    Verdict S I τ exact tl tyl ([] : List (Row α)) (fun _ => True) (β := β) (do
      let pl ← tl.mapM fun t => do .ok (pwild (← t.tType))
      .error (.nonExhaustive pl)) := by
  obtain ⟨ds, hds⟩ := exists_instances (I := I) (τ := τ) hI h
  have hno : ∀ ds, ¬ Covers I τ ([] : List (Row α)) ds := by
    rintro ds ⟨row, hrow, _⟩
    cases hrow
  obtain ⟨heq, hshape⟩ := mapM_pwild h
  rw [heq]
  exact .missing hds (hno ds) hshape fun _ ds _ _ => hno ds

end

section

variable (hI : I.Sound) (hfree : I.Free S) (hget : Answers S K get)
  (mkCase : Term → List (Pattern × α) → α)
include hI hfree hget mkCase

theorem compileFuel_decides (mkLet : VSymbol → Term → α → α) (fuel : ℕ) :
    Decides S K I τ (Exact S K get) fuel (compileFuel ⟨get, mkCase, mkLet⟩ fuel) := by
  induction fuel with
  | zero =>
    intro n tl tyl rl _ hfuel
    unfold fuelFor at hfuel
    omega
  | succ fuel ih =>
    intro n tl tyl rl h hfuel
    cases rl with
    | nil => exact verdict_nil hI h.terms
    | cons row rl =>
      have hterms := h.terms
      cases hterms with
      | nil =>
        refine .covered _ ?_
        intro ds _ hds
        cases hds
        refine ⟨row, mem_cons_self, ?_⟩
        rw [map_eq_nil_iff.mp (h.rows row mem_cons_self).types]
        exact Option.some_ne_none _
      | @cons t ty tl tyl ht _ =>
        obtain ⟨Γ, ht⟩ := ht
        have hok := h.types ty mem_cons_self
        have hgets : ∀ ts tl, ty = .tyapp ts tl → Gets S get ts := by
          rintro ts tl rfl
          exact hget.gets ts (hok.2 ts (by simp))
        obtain ⟨c, hc, hspec, hcss⟩ :=
          columnOf_total ⟨get, mkCase, mkLet⟩ hgets ht.tTy_eq h.columnTyped
        rw [compileFuel, hc]
        exact compTree_verdict ih hspec h hfuel hget hI hfree
          (fun hexact => columnConstrs_bare hexact hok hcss) mkCase

theorem compile_verdict (mkLet : VSymbol → Term → α → α) (n : ℕ) (h : Matrix S K tl tyl rl) :
    Verdict S I τ (Exact S K get) tl tyl rl (fun _ => True)
      (Pattern.compile ⟨get, mkCase, mkLet⟩ n tl rl) :=
  compileFuel_decides hI hfree hget mkCase mkLet _ h le_rfl

end

end Pattern

end Why3

import Mathlib.Data.Nat.Find
import Why3.Core.ExtractPos

/-!
# The positivity check

The answers of `tsExtractPos` are compared with the unfoldings of types. A parameter that
occurs in a place that is not positive flows there along a chain of applications. The
shortest such chain shows that the answer is right if the parameter does not come back to a
symbol of the chain in another place. The check of a declaration is sound if this holds of the
places where the declared types occur; a type that exchanges its parameters shows that there
are others.
-/

namespace Why3

open Lib List

variable {kn : KnownMap} {tl : List Ty} {q : Polarity} {ts : TySymbol} {n : ℕ}
variable {cs : LSymbol} {tss : List TySymbol} {v : TvSymbol} {ty : Ty} {g tys : TySymbol}

/-! ## Groups of declared symbols -/

def Clean (tss : List TySymbol) (ty : Ty) : Prop := ∀ ts ∈ ty.syms, ts ∉ tss

inductive GroupOk (kn : KnownMap) (tss : List TySymbol) : Ty → Prop where
  | tyvar (v : TvSymbol) : GroupOk kn tss (.tyvar v)
  | tyapp {ts : TySymbol} {tl : List Ty}
      (hclean : ∀ (j : ℕ) (ty : Ty), tl[j]? = some ty → Exposed kn [] ts j → Clean tss ty)
      (hok : ∀ (j : ℕ) (ty : Ty), tl[j]? = some ty → ¬ Exposed kn [] ts j → GroupOk kn tss ty) :
      GroupOk kn tss (.tyapp ts tl)

theorem checkPosList_spec {posl : List Bool} (h : checkPosList kn tss tys cs posl tl = .ok ()) :
    posl.length = tl.length ∧ ∀ (j : ℕ) (ty : Ty), tl[j]? = some ty →
      (posl[j]? = some false ∧ Clean tss ty) ∨
        (posl[j]? = some true ∧ checkPosTy kn tss tys cs ty = .ok ()) := by
  induction tl generalizing posl with
  | nil =>
    cases posl with
    | nil => simp
    | cons b posl => cases b <;> simp [checkPosList] at h
  | cons ty tl ih =>
    cases posl with
    | nil => simp [checkPosList] at h
    | cons b posl =>
      have hhead : checkPosList kn tss tys cs posl tl = .ok () ∧
          ((b = false ∧ Clean tss ty) ∨ (b = true ∧ checkPosTy kn tss tys cs ty = .ok ())) := by
        cases b with
        | true =>
          obtain ⟨⟨⟩, hty, htl⟩ := bind_eq_ok.mp h
          exact ⟨htl, .inr ⟨rfl, hty⟩⟩
        | false =>
          unfold checkPosList at h
          split at h
          · simp at h
          · next hany =>
              refine ⟨h, .inl ⟨rfl, ?_⟩⟩
              intro ts hts hmem
              exact hany (any_eq_true.mpr ⟨ts, hts, by simpa using hmem⟩)
      obtain ⟨hlen, hall⟩ := ih hhead.1
      refine ⟨by simp [hlen], ?_⟩
      intro j a hj
      cases j with
      | zero =>
        simp only [getElem?_cons_zero, Option.some.injEq] at hj ⊢
        exact hj ▸ hhead.2
      | succ j => simpa using hall j a (by simpa using hj)

theorem checkPosTy_groupOk (hkn : Known kn) (ty : Ty) (hsyms : ∀ ts ∈ ty.syms, TypeKnown kn ts)
    (h : checkPosTy kn tss tys cs ty = .ok ()) : GroupOk kn tss ty := by
  induction ty using Ty.inductionOn with
  | hvar v => exact .tyvar v
  | happ ts tl ih =>
    obtain ⟨posl, hposl, h⟩ := bind_eq_ok.mp h
    obtain ⟨posl', hposl', _, hspec⟩ := tsExtractPos_spec hkn (.inr (hsyms ts (by simp)))
    rw [hposl, Except.ok.injEq] at hposl'
    subst hposl'
    obtain ⟨_, hall⟩ := checkPosList_spec h
    constructor
    · intro j ty hty hexp
      rcases hall j ty hty with ⟨_, hclean⟩ | ⟨hj, _⟩
      · exact hclean
      · rw [← hspec j, hj] at hexp
        cases hexp
    · intro j ty hty hexp
      rcases hall j ty hty with ⟨hj, _⟩ | ⟨_, hcheck⟩
      · exact absurd ((hspec j).mp hj) hexp
      · have hmem := mem_of_getElem? hty
        exact ih ty hmem (fun ts' hts' =>
          hsyms ts' ((Ty.mem_syms_tyapp ts tl ts').mpr (.inr ⟨ty, hmem, hts'⟩))) hcheck

section Group

variable {kn kn' : KnownMap} {tdl : List DataDecl}

theorem mem_or_eq_tyvar_of_paramMap (ts : TySymbol) (tl : List Ty) (v : TvSymbol) :
    paramMap ts tl v ∈ tl ∨ paramMap ts tl v = .tyvar v := by
  unfold paramMap
  cases hf : (ts.tsArgs.zip tl).lookup v with
  | none => exact .inr rfl
  | some ty => exact .inl (of_mem_zip (mem_of_lookup hf)).2

theorem UnfoldStep.clean (hkn : Known kn) (hadd : Added kn (.ddata tdl) kn') {ty' : Ty}
    (h : UnfoldStep kn' ty q ty') (hty : Clean (tdl.map Prod.fst) ty) :
    Clean (tdl.map Prod.fst) ty' := by
  have hsub : ∀ {ts tl a}, Clean (tdl.map Prod.fst) (.tyapp ts tl) → a ∈ tl →
      Clean (tdl.map Prod.fst) a := by
    intro ts tl a hty ha ts' hts'
    exact hty ts' ((Ty.mem_syms_tyapp ts tl ts').mpr (.inr ⟨a, ha, hts'⟩))
  cases h with
  | funcArg | funcRes => exact hsub hty (by simp)
  | abstract _ _ hmem => exact hsub hty hmem
  | @data ts tl arg _ harg =>
    intro ts' hts'
    rcases (Ty.mem_syms_vMap _ _ _).mp hts' with hts' | ⟨v, _, hts'⟩
    · exact hkn.argOf_before hadd (hty ts (by simp)) harg ts' hts'
    · rcases mem_or_eq_tyvar_of_paramMap ts tl v with hmem | heq
      · exact hsub hty hmem ts' hts'
      · rw [heq] at hts'
        simp at hts'

theorem not_unfolds_of_clean (hkn : Known kn) (hadd : Added kn (.ddata tdl) kn')
    (hty : Clean (tdl.map Prod.fst) ty) (hg : g ∈ tdl.map Prod.fst) :
    ¬ Unfolds kn' ty q (.tyapp g tl) n := by
  intro h
  have hclean := h.induct (P := Clean (tdl.map Prod.fst))
    (fun _ _ _ hstep hty => hstep.clean hkn hadd hty) hty
  exact hclean g (by simp) hg

/-- The parameter occurs in a place of an unfolding that is not positive. -/
def NonPositive (kn : KnownMap) (ts : TySymbol) (v : TvSymbol) : Prop :=
  ∃ q n, q ≠ 1 ∧ Unfolds kn (.tyapp ts (ts.tsArgs.map .tyvar)) q (.tyvar v) n

theorem saturated_tyapp_tyvar (ts : TySymbol) :
    (Ty.tyapp ts (ts.tsArgs.map .tyvar)).saturated = true := by
  rw [Ty.saturated_tyapp, length_map]
  refine ⟨rfl, ?_⟩
  intro ty hty
  obtain ⟨v, _, rfl⟩ := mem_map.mp hty
  rfl

theorem vMap_paramMap (hl : tl.length = ts.tsArgs.length) :
    (Ty.tyapp ts (ts.tsArgs.map .tyvar)).vMap (paramMap ts tl) = .tyapp ts tl := by
  rw [Ty.vMap_tyapp, map_map]
  congr 1
  apply ext_getElem
  · simp [hl]
  · intro j hj hj'
    rw [getElem_map]
    have hv : ts.tsArgs[j]? = some (ts.tsArgs[j]) := getElem?_eq_getElem (hl ▸ hj')
    exact paramMap_eq hv (getElem?_eq_getElem hj')

theorem Unfolds.freevars (hkn : Known kn) {ty' : Ty} (h : Unfolds kn ty q ty' n)
    (hty : ty.saturated = true) (hv : v ∈ ty'.freevars) : v ∈ ty.freevars := by
  have hinv := h.induct (P := fun t => t.saturated = true ∧ ∀ v ∈ t.freevars, v ∈ ty.freevars)
    (fun _ _ _ hstep ht => ⟨hstep.saturated hkn ht.1, fun v hv =>
      ht.2 v (hstep.freevars hkn ht.1 v hv)⟩) ⟨hty, fun _ hv => hv⟩
  exact hinv.2 v hv

theorem Unfolds.mem_tsArgs (hkn : Known kn)
    (h : Unfolds kn (.tyapp ts (ts.tsArgs.map .tyvar)) q (.tyvar v) n) : v ∈ ts.tsArgs := by
  simpa using h.freevars hkn (saturated_tyapp_tyvar ts) (v := v) (by simp)

/-- A type symbol applied to its own parameters leads to the group only through a
constructor of the group. -/
theorem unfolds_params_to_group (hkn : Known kn) (hadd : Added kn (.ddata tdl) kn')
    (hg : g ∈ tdl.map Prod.fst)
    (h : Unfolds kn' (.tyapp ts (ts.tsArgs.map .tyvar)) q (.tyapp g tl) n) :
    q = 1 ∨ ∃ arg m, m < n ∧ ts ∈ tdl.map Prod.fst ∧ ArgOf kn' ts arg ∧
      Unfolds kn' arg q (.tyapp g tl) m := by
  by_cases hts : ts ∈ tdl.map Prod.fst
  · generalize hty : Ty.tyapp ts (ts.tsArgs.map .tyvar) = ty at h
    cases h with
    | refl => exact .inl rfl
    | @step _ ty₁ _ q r m hstep hrest =>
      -- other steps lead to a parameter, from where there is no way on
      have hvar : ty₁ ∈ ts.tsArgs.map Ty.tyvar → q * r = 1 := by
        intro hmem
        obtain ⟨v, _, rfl⟩ := mem_map.mp hmem
        cases (unfolds_tyvar hrest).2.1
      cases hstep with
      | funcArg | funcRes =>
        cases hty
        exact .inl (hvar (by simp [tsFunc]))
      | abstract _ _ hmem =>
        cases hty
        exact .inl (hvar hmem)
      | @data _ _ arg _ harg =>
        cases hty
        rw [vMap_paramMap_tyvar] at hrest
        exact .inr ⟨arg, m, by omega, hts, harg, hrest⟩
  · refine absurd h (not_unfolds_of_clean hkn hadd ?_ hg)
    intro ts' hts'
    rcases (Ty.mem_syms_tyapp _ _ _).mp hts' with rfl | ⟨ty, hty, hts'⟩
    · exact hts
    · obtain ⟨v, _, rfl⟩ := mem_map.mp hty
      simp at hts'

/-! ## The flow of parameters -/

/-- The parameter `j` of `ts` occurs in the argument `k` of an application of `ts'`, in an argument
of a constructor of `ts`. -/
def FlowStep (kn : KnownMap) (ts : TySymbol) (j : ℕ) (ts' : TySymbol) (k : ℕ) : Prop :=
  ∃ v arg ty tl, ArgOf kn ts arg ∧ AppIn arg ts' tl ∧ tl[k]? = some ty ∧
    ts.tsArgs[j]? = some v ∧ v ∈ ty.freevars

/-- A parameter flows to the left of an arrow or to an argument of an abstract type. -/
inductive FlowsOut (kn : KnownMap) : ℕ → TySymbol → ℕ → Prop where
  | func : FlowsOut kn 0 tsFunc 0
  | abstract {ts : TySymbol} {j : ℕ} (hts : ts ≠ tsFunc) (hcs : findConstructors kn ts = .ok [])
      (hj : j < ts.tsArgs.length) : FlowsOut kn 0 ts j
  | step {n : ℕ} {ts ts' : TySymbol} {j k : ℕ} (hts : ts ≠ tsFunc) (h : FlowStep kn ts j ts' k)
      (hrest : FlowsOut kn n ts' k) : FlowsOut kn (n + 1) ts j

/-- A parameter comes back to a symbol of the chain in another place. The symbols of the chain, with
the places of the parameter in them, are `st` in the beginning, and none is passed twice. -/
inductive Exchanges (kn : KnownMap) : List (TySymbol × ℕ) → TySymbol → ℕ → Prop where
  | back {st : List (TySymbol × ℕ)} {ts : TySymbol} {i j : ℕ} (hmem : (ts, i) ∈ st) (hne : i ≠ j) :
      Exchanges kn st ts j
  | step {st : List (TySymbol × ℕ)} {ts ts' : TySymbol} {j k : ℕ} (hts : ts ≠ tsFunc)
      (hst : ts ∉ st.map Prod.fst) (h : FlowStep kn ts j ts' k)
      (hrest : Exchanges kn ((ts, j) :: st) ts' k) : Exchanges kn st ts j

/-- A parameter that is not exposed and does not change its place does not flow out. The chain is
the shortest one, so that it does not come back to a symbol in the same place. -/
theorem not_flowsOut {j : ℕ} (st : List (TySymbol × ℕ)) (h : FlowsOut kn n ts j)
    (hleast : ∀ m < n, ¬ FlowsOut kn m ts j) (hst : ∀ x ∈ st, ∀ m ≤ n, ¬ FlowsOut kn m x.1 x.2)
    (hexp : ¬ Exposed kn (st.map Prod.fst) ts j) (hex : ¬ Exchanges kn st ts j) : False := by
  induction h generalizing st with
  | func => exact hexp (.func _)
  | @abstract ts j hts hcs hj =>
    refine hexp (.abstract hts (fun hmem => ?_) hcs hj)
    obtain ⟨⟨s, i⟩, hx, rfl⟩ := mem_map.mp hmem
    by_cases hij : i = j
    · exact hst _ hx 0 le_rfl (hij ▸ .abstract hts hcs hj)
    · exact hex (.back hx hij)
  | @step n ts ts' j k hts hstep hrest ih =>
    have hnot : ts ∉ st.map Prod.fst := by
      intro hmem
      obtain ⟨⟨s, i⟩, hx, rfl⟩ := mem_map.mp hmem
      by_cases hij : i = j
      · exact hst _ hx (n + 1) le_rfl (hij ▸ .step hts hstep hrest)
      · exact hex (.back hx hij)
    refine ih ((ts, j) :: st) ?_ ?_ ?_ ?_
    · exact fun m hm hout => hleast (m + 1) (by omega) (.step hts hstep hout)
    · rw [forall_mem_cons]
      exact ⟨fun m hm => hleast m (by omega), fun x hx m hm => hst x hx m (by omega)⟩
    · intro hexp'
      obtain ⟨v, arg, ty, tl, harg, happ, hk, hj, hv⟩ := hstep
      exact hexp (.data hts hnot harg happ hk hj hv hexp')
    · exact fun hex' => hex (.step hts hnot hstep hex')

/-- A variable that occurs in a place of an unfolding that is not positive is in an argument that
flows out. -/
theorem exists_flowsOut (hkn : Known kn) (hsat : ty.saturated = true)
    (h : Unfolds kn ty q (.tyvar v) n) (hq : q ≠ 1) :
    ∃ ts tl k a m, AppIn ty ts tl ∧ tl[k]? = some a ∧ v ∈ a.freevars ∧ FlowsOut kn m ts k := by
  induction n using Nat.strong_induction_on generalizing ty q v with
  | _ n ih =>
    cases h with
    | refl => exact absurd rfl hq
    | @step _ ty₁ _ q r n hstep hrest =>
      have hsat₁ := hstep.saturated hkn hsat
      have hfree : v ∈ ty₁.freevars := hrest.freevars hkn hsat₁ (by simp)
      cases hstep with
      | funcArg _ ty' => exact ⟨tsFunc, _, 0, ty₁, 0, .here _ _, rfl, hfree, .func⟩
      | funcRes ty _ =>
        obtain ⟨ts, tl, k, a, m, happ, hk, hv, hout⟩ := ih n (by omega) hsat₁ hrest hq
        exact ⟨ts, tl, k, a, m, .arg (by simp) happ, hk, hv, hout⟩
      | @abstract ts tl _ hts hcs hmem =>
        obtain ⟨k, hk⟩ := mem_iff_getElem?.mp hmem
        have hlt : k < ts.tsArgs.length :=
          ((Ty.saturated_tyapp ts tl).mp hsat).1 ▸ (List.getElem?_eq_some_iff.mp hk).1
        exact ⟨ts, tl, k, ty₁, 0, .here ts tl, hk, hfree, .abstract hts hcs hlt⟩
      | @data ts tl arg hts harg =>
        obtain ⟨hl, htl⟩ := (Ty.saturated_tyapp ts tl).mp hsat
        have hwf := hkn.argOf harg
        -- a parameter that flows out in the argument of the constructor
        have hparam : ∀ w q₁ n₁, n₁ < n + 1 → Unfolds kn arg q₁ (.tyvar w) n₁ → q₁ ≠ 1 →
            v ∈ (paramMap ts tl w).freevars → ∃ ts' tl' k a m, AppIn (.tyapp ts tl) ts' tl' ∧
              tl'[k]? = some a ∧ v ∈ a.freevars ∧ FlowsOut kn m ts' k := by
          intro w q₁ n₁ hn h₁ hq₁ hv
          obtain ⟨ts', tl', k, a, m, happ, hk, hw, hout⟩ := ih n₁ hn hwf.saturated h₁ hq₁
          obtain ⟨j, hj, htlj⟩ := exists_paramMap_eq hl
            (hwf.freevars w (h₁.freevars hkn hwf.saturated (by simp)))
          exact ⟨ts, tl, j, _, m + 1, .here ts tl, htlj, hv,
            .step hts ⟨w, arg, a, tl', harg, happ, hk, hj, hw⟩ hout⟩
        rcases unfolds_vMap hkn hwf.saturated hrest with
          ⟨ty₂, h₂, heq⟩ | ⟨w, q₁, q₂, n₁, n₂, h₁, h₂, hr, hn⟩
        · cases ty₂ with
          | tyapp => cases heq
          | tyvar w =>
            rw [Ty.vMap_tyvar] at heq
            exact hparam w r n (by omega) h₂ hq (by rw [← heq]; simp)
        · by_cases hq₁ : q₁ = 1
          · rw [hq₁, one_mul] at hr
            obtain ⟨j, hj, htlj⟩ := exists_paramMap_eq hl
              (hwf.freevars w (h₁.freevars hkn hwf.saturated (by simp)))
            have hmem := mem_of_getElem? htlj
            obtain ⟨ts', tl', k, a, m, happ, hk, hv, hout⟩ := ih n₂ (by omega) (htl _ hmem) h₂
              (by rw [← hr]; exact hq)
            exact ⟨ts', tl', k, a, m, .arg hmem happ, hk, hv, hout⟩
          · have hw : (paramMap ts tl w).saturated = true := by
              obtain ⟨j, hj, htlj⟩ := exists_paramMap_eq hl
                (hwf.freevars w (h₁.freevars hkn hwf.saturated (by simp)))
              exact htl _ (mem_of_getElem? htlj)
            exact hparam w q₁ n₁ (by omega) h₁ hq₁ (h₂.freevars hkn hw (by simp))

theorem appIn_params {s : TySymbol} (h : AppIn (.tyapp ts (ts.tsArgs.map .tyvar)) s tl) :
    s = ts ∧ tl = ts.tsArgs.map .tyvar := by
  cases h with
  | here => exact ⟨rfl, rfl⟩
  | arg hty h =>
    obtain ⟨v, -, rfl⟩ := mem_map.mp hty
    cases h

/-- A parameter that is not exposed and does not change its place occurs in positive places only. -/
theorem not_nonPositive (hkn : Known kn) {j : ℕ} (hj : ts.tsArgs[j]? = some v)
    (hexp : ¬ Exposed kn [] ts j) (hex : ¬ Exchanges kn [] ts j) : ¬ NonPositive kn ts v := by
  classical
  rintro ⟨q, n, hq, h⟩
  obtain ⟨ts', tl, k, a, m, happ, hk, hv, hout⟩ :=
    exists_flowsOut hkn (saturated_tyapp_tyvar ts) h hq
  obtain ⟨rfl, rfl⟩ := appIn_params happ
  rw [getElem?_map, Option.map_eq_some_iff] at hk
  obtain ⟨w, hw, rfl⟩ := hk
  obtain rfl : v = w := by simpa using hv
  obtain rfl : k = j := (List.getElem?_inj (List.getElem?_eq_some_iff.mp hw).1
    ts'.argsNodup).mp (hw.trans hj.symm)
  have hout : ∃ m, FlowsOut kn m ts' k := ⟨m, hout⟩
  have hnil : ∀ x ∈ ([] : List (TySymbol × ℕ)), ∀ m ≤ Nat.find hout, ¬ FlowsOut kn m x.1 x.2 := by
    simp
  exact not_flowsOut [] (Nat.find_spec hout) (fun m => Nat.find_min hout) hnil hexp hex

/-! ## Accepted groups -/

/-- Where a type of the group occurs in an argument of an application, the parameter keeps its place
in the symbol that is applied. -/
def KeepsPlaces (kn : KnownMap) (tss : List TySymbol) (ty : Ty) : Prop :=
  ∀ ts tl, AppIn ty ts tl → ∀ (j : ℕ) (a : Ty), tl[j]? = some a → ¬ Clean tss a →
    ¬ Exchanges kn [] ts j

/-- If the constructors of the group pass the check, then no unfolding of a type
that passes it reaches the group in a place that is not positive. -/
theorem unfolds_pos_of_groupOk (hkn : Known kn) (hkn' : Known kn')
    (hadd : Added kn (.ddata tdl) kn')
    (hok : ∀ ts ∈ tdl.map Prod.fst, ∀ arg, ArgOf kn' ts arg →
      GroupOk kn' (tdl.map Prod.fst) arg ∧ KeepsPlaces kn' (tdl.map Prod.fst) arg) :
    ∀ (n : ℕ) (ty : Ty) (q : Polarity) (g : TySymbol) (tl : List Ty), ty.saturated = true →
      GroupOk kn' (tdl.map Prod.fst) ty → KeepsPlaces kn' (tdl.map Prod.fst) ty →
      g ∈ tdl.map Prod.fst → Unfolds kn' ty q (.tyapp g tl) n → q = 1 := by
  intro n
  induction n using Nat.strong_induction_on with
  | _ n ih =>
    intro ty q g tl hsat hty hkeep hg h
    cases hty with
    | tyvar v => cases (unfolds_tyvar h).2.1
    | @tyapp ts tl₀ hclean hpos =>
      obtain ⟨hl, htl₀⟩ := (Ty.saturated_tyapp ts tl₀).mp hsat
      have hinst := h
      rw [← vMap_paramMap hl] at hinst
      -- an unfolding through the parameter `v`
      have hparam : ∀ v q₁ q₂ n₁ n₂, Unfolds kn' (.tyapp ts (ts.tsArgs.map .tyvar)) q₁ (.tyvar v) n₁ →
          Unfolds kn' (paramMap ts tl₀ v) q₂ (.tyapp g tl) n₂ → n₂ < n → q₁ * q₂ = 1 := by
        intro v q₁ q₂ n₁ n₂ h₁ h₂ hn
        obtain ⟨j, hj, hv⟩ := exists_paramMap_eq hl (h₁.mem_tsArgs hkn')
        by_cases hcl : Clean (tdl.map Prod.fst) (paramMap ts tl₀ v)
        · exact absurd h₂ (not_unfolds_of_clean hkn hadd hcl hg)
        · have hexpj : ¬ Exposed kn' [] ts j := fun hexpj => hcl (hclean j _ hv hexpj)
          have hq₁ : q₁ = 1 := by
            by_contra hq₁
            exact not_nonPositive hkn' hj hexpj (hkeep ts tl₀ (.here ts tl₀) j _ hv hcl)
              ⟨q₁, n₁, hq₁, h₁⟩
          have hmem := mem_of_getElem? hv
          have hq₂ := ih n₂ hn _ q₂ g tl (htl₀ _ hmem) (hpos j _ hv hexpj)
            (fun ts' tl' happ => hkeep ts' tl' (.arg hmem happ)) hg h₂
          rw [hq₁, hq₂, one_mul]
      have hlong : ∀ {q₁ v n₁}, Unfolds kn' (.tyapp ts (ts.tsArgs.map .tyvar)) q₁ (.tyvar v) n₁ →
          0 < n₁ := by
        intro q₁ v n₁ h₁
        cases h₁
        omega
      rcases unfolds_vMap hkn' (saturated_tyapp_tyvar ts) hinst with
        ⟨ty₁, h₁, heq⟩ | ⟨v, q₁, q₂, n₁, n₂, h₁, h₂, rfl, rfl⟩
      · cases ty₁ with
        | tyvar v =>
          have hq := hparam v q 1 n 0 h₁ (heq ▸ .refl _) (hlong h₁)
          rwa [mul_one] at hq
        | tyapp g' tl' =>
          rw [Ty.vMap_tyapp] at heq
          cases heq
          rcases unfolds_params_to_group hkn hadd hg h₁ with hq | ⟨arg, m, hm, hts, harg, h₂⟩
          · exact hq
          · exact ih m hm arg q g tl' (hkn'.argOf harg).saturated (hok ts hts arg harg).1
              (hok ts hts arg harg).2 hg h₂
      · have := hlong h₁
        exact hparam v q₁ q₂ n₁ n₂ h₁ h₂ (by omega)

/-! ## Soundness of the check -/

/-- In the unfoldings of the constructor arguments of the group, its symbols occur
in positive places only. -/
def GroupPositive (kn : KnownMap) (tdl : List DataDecl) : Prop :=
  ∀ td ∈ tdl, ∀ c ∈ td.2, ∀ arg ∈ c.1.lsArgs, ∀ q g tl n, g ∈ tdl.map Prod.fst →
    Unfolds kn arg q (.tyapp g tl) n → q = 1

/-- A parameter that is answered positive occurs in positive places only. -/
def AnswersPositive (kn : KnownMap) : Prop :=
  ∀ (ts : TySymbol) (posl : List Bool), tsExtractPos kn [] ts = .ok posl →
    ∀ (j : ℕ) (v : TvSymbol), posl[j]? = some true → ts.tsArgs[j]? = some v → ¬ NonPositive kn ts v

theorem NonPositive.known (h : NonPositive kn ts v) : ts = tsFunc ∨ TypeKnown kn ts := by
  obtain ⟨q, n, _, h⟩ := h
  cases h with
  | step hstep _ =>
    generalize hty : Ty.tyapp ts (ts.tsArgs.map .tyvar) = ty at hstep
    cases hstep with
    | funcArg | funcRes =>
      cases hty
      exact .inl rfl
    | abstract _ hcs _ =>
      cases hty
      exact .inr ⟨[], hcs⟩
    | data _ harg =>
      cases hty
      obtain ⟨csl, hcsl, _⟩ := harg
      exact .inr ⟨csl, hcsl⟩

theorem groupOk_of_added (hkn' : Known kn') (hadd : Added kn (.ddata tdl) kn')
    (hts : ts ∈ tdl.map Prod.fst) {arg : Ty} (harg : ArgOf kn' ts arg) :
    GroupOk kn' (tdl.map Prod.fst) arg := by
  have hcheck := hadd.positive
  unfold checkPositivity at hcheck
  obtain ⟨cl, htd, c, hc, hmem⟩ := argOf_ddata hadd.toAddedBase hts harg
  exact checkPosTy_groupOk hkn' arg (hkn'.argOf harg).known
    (forM_eq_ok.mp (forM_eq_ok.mp (forM_eq_ok.mp hcheck _ htd) c hc) arg hmem)

/-- The check of an accepted declaration is sound if the parameters keep their places where the
declared types occur in arguments, and an answer that a parameter is positive is right if the
parameter keeps its place. -/
theorem positivity_sound (hkn : Known kn) (hd : (Decl.ddata tdl).WellFormed)
    (h : knownAddDecl kn (.ddata tdl) = .ok kn') :
    ((∀ td ∈ tdl, ∀ c ∈ td.2, ∀ arg ∈ c.1.lsArgs, KeepsPlaces kn' (tdl.map Prod.fst) arg) →
      GroupPositive kn' tdl) ∧
    ∀ (ts : TySymbol) (posl : List Bool), tsExtractPos kn' [] ts = .ok posl →
      ∀ (j : ℕ) (v : TvSymbol), posl[j]? = some true → ts.tsArgs[j]? = some v →
        ¬ Exchanges kn' [] ts j → ¬ NonPositive kn' ts v := by
  have hkn' := hkn.add hd h
  have hadd := knownAddDecl_added h
  constructor
  · intro hkeep td htd c hc arg harg q g tl n hg hunf
    have hgroup : ∀ ts ∈ tdl.map Prod.fst, ∀ arg, ArgOf kn' ts arg →
        GroupOk kn' (tdl.map Prod.fst) arg ∧ KeepsPlaces kn' (tdl.map Prod.fst) arg := by
      intro ts hts arg harg
      obtain ⟨cl, htd, c, hc, hmem⟩ := argOf_ddata hadd.toAddedBase hts harg
      exact ⟨groupOk_of_added hkn' hadd hts harg, hkeep _ htd c hc arg hmem⟩
    have hsyms : ∀ ts ∈ arg.syms, TypeKnown kn' ts := by
      intro ts hts
      obtain ⟨syms, hsyms, hall⟩ := hadd.uses
      rw [hkn'.typeKnown_iff]
      apply hall
      simp only [getDeclSyms, Except.ok.injEq] at hsyms
      rw [← hsyms]
      simp only [mem_flatMap]
      exact ⟨td, htd, c, hc, arg, harg, mem_map_of_mem hts⟩
    have hcheck := hadd.positive
    unfold checkPositivity at hcheck
    have hok := checkPosTy_groupOk hkn' arg hsyms
      (forM_eq_ok.mp (forM_eq_ok.mp (forM_eq_ok.mp hcheck td htd) c hc) arg harg)
    exact unfolds_pos_of_groupOk hkn hkn' hadd hgroup n arg q g tl (hd.2 td htd c hc arg harg) hok
      (hkeep td htd c hc arg harg) hg hunf
  · intro ts posl hposl j v hj hv hex hneg
    obtain ⟨posl', hposl', _, hspec⟩ := tsExtractPos_spec hkn' hneg.known
    rw [hposl, Except.ok.injEq] at hposl'
    subst hposl'
    refine not_nonPositive hkn' hv (fun hexp => ?_) hex hneg
    rw [← hspec j, hj] at hexp
    cases hexp

end Group

/-! ## Types that keep and types that exchange their parameters -/

def tvA : TvSymbol := ⟨⟨101⟩⟩

def tvB : TvSymbol := ⟨⟨102⟩⟩

def swapTs : TySymbol :=
  { tsName := ⟨100⟩, tsArgs := [tvA, tvB], tsDef := .noDef }

/-- `type swap 'a 'b = C ('a -> int) | D (swap 'b 'a)`. -/
def swapDecl : DataDecl :=
  (swapTs,
    [(⟨⟨103⟩, [tyFunc (.tyvar tvA) tyInt], some (.tyapp swapTs [.tyvar tvA, .tyvar tvB]), 2⟩,
        [none]),
      (⟨⟨104⟩, [.tyapp swapTs [.tyvar tvB, .tyvar tvA]],
        some (.tyapp swapTs [.tyvar tvA, .tyvar tvB]), 2⟩, [none])])

def badTs : TySymbol := ⟨⟨105⟩, [], .noDef, nodup_nil⟩

/-- `type bad = Z | K (swap int bad)`. -/
def badDecl : DataDecl :=
  (badTs,
    [(⟨⟨106⟩, [], some (.tyapp badTs []), 2⟩, []),
      (⟨⟨107⟩, [.tyapp swapTs [tyInt, .tyapp badTs []]], some (.tyapp badTs []), 2⟩, [none])])

def knownOf (dl : List Decl) : KnownMap :=
  match dl.foldlM knownAddDecl .empty with
  | .ok kn => kn
  | .error _ => .empty

def funcDecls : List Decl := [.dtype tsInt.embed, .dtype tsFunc.embed]

def swapDecls : List Decl := [.dtype tsInt.embed, .dtype tsFunc.embed, .ddata [swapDecl]]

def badDecls : List Decl :=
  [.dtype tsInt.embed, .dtype tsFunc.embed, .ddata [swapDecl], .ddata [badDecl]]

theorem known_foldlM {dl : List Decl} {kn' : KnownMap} (hkn : Known kn)
    (hdl : ∀ d ∈ dl, d.WellFormed) (h : dl.foldlM knownAddDecl kn = .ok kn') : Known kn' := by
  induction dl generalizing kn with
  | nil =>
    rw [foldlM_nil_eq_ok] at h
    exact h ▸ hkn
  | cons d dl ih =>
    obtain ⟨kn₁, h₁, h₂⟩ := foldlM_cons_eq_ok.mp h
    rw [forall_mem_cons] at hdl
    exact ih (hkn.add hdl.1 h₁) hdl.2 h₂

theorem swapDecl_wellFormed : (Decl.ddata [swapDecl]).WellFormed := ⟨rfl, by decide⟩

theorem badDecl_wellFormed : (Decl.ddata [badDecl]).WellFormed := ⟨rfl, by decide⟩

theorem known_funcDecls : Known (knownOf funcDecls) :=
  known_foldlM .empty (show ∀ d ∈ funcDecls, d.WellFormed by simp [funcDecls, Decl.WellFormed])
    rfl

theorem known_swapDecls : Known (knownOf swapDecls) :=
  known_funcDecls.add swapDecl_wellFormed rfl

theorem argOf_swapTs (arg : Ty) (h : arg = tyFunc (.tyvar tvA) tyInt ∨
    arg = .tyapp swapTs [.tyvar tvB, .tyvar tvA]) : ArgOf (knownOf badDecls) swapTs arg := by
  refine ⟨swapDecl.2, rfl, ?_⟩
  rcases h with rfl | rfl
  · exact ⟨_, mem_cons_self, mem_cons_self⟩
  · exact ⟨_, mem_cons_of_mem _ mem_cons_self, mem_cons_self⟩

/-- The second parameter comes to stand to the left of an arrow after one exchange. -/
theorem unfolds_swap (ty ty' : Ty) :
    Unfolds (knownOf badDecls) (.tyapp swapTs [ty, ty']) .neg ty' 3 := by
  have hD : UnfoldStep (knownOf badDecls) (.tyapp swapTs [ty, ty']) .pos
      (.tyapp swapTs [ty', ty]) :=
    .data (by decide) (argOf_swapTs _ (.inr rfl))
  have hC : UnfoldStep (knownOf badDecls) (.tyapp swapTs [ty', ty]) .pos (tyFunc ty' tyInt) :=
    .data (by decide) (argOf_swapTs _ (.inl rfl))
  exact .step hD (.step hC (.step (.funcArg ty' tyInt) (.refl ty')))

def listTs : TySymbol := ⟨⟨110⟩, [tvA], .noDef, nodup_singleton tvA⟩

/-- `type list 'a = Cons 'a (list 'a) | Nil`. -/
def listDecl : DataDecl :=
  (listTs,
    [(⟨⟨112⟩, [.tyvar tvA, .tyapp listTs [.tyvar tvA]], some (.tyapp listTs [.tyvar tvA]), 2⟩,
        [none, none]),
      (⟨⟨111⟩, [], some (.tyapp listTs [.tyvar tvA]), 2⟩, [])])

def procTs : TySymbol := ⟨⟨118⟩, [], .noDef, nodup_nil⟩

/-- `type proc = Go (int -> list proc)`. -/
def procDecl : DataDecl :=
  (procTs,
    [(⟨⟨119⟩, [tyFunc tyInt (.tyapp listTs [.tyapp procTs []])], some (.tyapp procTs []), 1⟩,
      [none])])

def listDecls : List Decl := funcDecls ++ [.ddata [listDecl]]

def procDecls : List Decl := listDecls ++ [.ddata [procDecl]]

theorem known_listDecls : Known (knownOf listDecls) :=
  known_funcDecls.add (d := .ddata [listDecl]) ⟨rfl, by decide⟩ rfl

theorem not_exchanges_list : ¬ Exchanges (knownOf procDecls) [] listTs 0 := by
  have hstep : ∀ {ts k}, FlowStep (knownOf procDecls) listTs 0 ts k → ts = listTs ∧ k = 0 := by
    rintro ts k ⟨v, arg, ty, tl, ⟨csl, hcs, c, hc, harg⟩, happ, hk, -, -⟩
    have hcsl : listDecl.2 = csl := Except.ok.inj hcs
    rw [← hcsl] at hc
    simp only [listDecl, mem_cons, not_mem_nil, or_false] at hc
    rcases hc with rfl | rfl
    · rcases mem_cons.mp harg with rfl | harg
      · cases happ
      · rw [mem_singleton.mp harg] at happ
        obtain ⟨rfl, rfl⟩ := appIn_params
          (show AppIn (.tyapp listTs (listTs.tsArgs.map .tyvar)) ts tl from happ)
        have hlt := (List.getElem?_eq_some_iff.mp hk).1
        exact ⟨rfl, Nat.lt_one_iff.mp hlt⟩
    · cases harg
  intro h
  cases h with
  | back hmem _ => cases hmem
  | step _ _ h hrest =>
    obtain ⟨rfl, rfl⟩ := hstep h
    cases hrest with
    | back hmem hne =>
      rw [mem_singleton, Prod.mk.injEq] at hmem
      exact hne hmem.2
    | step _ hst _ _ => exact hst (by simp)

theorem positivity_sound_proc : Known (knownOf listDecls) ∧
    knownAddDecl (knownOf listDecls) (.ddata [procDecl]) = .ok (knownOf procDecls) ∧
    GroupPositive (knownOf procDecls) [procDecl] ∧ ¬ NonPositive (knownOf procDecls) listTs tvA := by
  obtain ⟨hgroup, hanswer⟩ := positivity_sound known_listDecls
    (show (Decl.ddata [procDecl]).WellFormed from ⟨rfl, by decide⟩)
    (show knownAddDecl (knownOf listDecls) (.ddata [procDecl]) = .ok (knownOf procDecls) from rfl)
  refine ⟨known_listDecls, rfl, hgroup ?_, hanswer listTs [true] rfl 0 tvA rfl rfl
    not_exchanges_list⟩
  intro td htd c hc arg harg ts tl happ j a hj hgrp
  rw [mem_singleton.mp htd] at hc
  rw [mem_singleton.mp hc] at harg
  rw [mem_singleton.mp harg] at happ
  have hlist : ∀ {ts tl}, AppIn (.tyapp listTs [.tyapp procTs []]) ts tl → tl[j]? = some a →
      ¬ Exchanges (knownOf procDecls) [] ts j := by
    intro ts tl happ hj
    cases happ with
    | here =>
      have hlt := (List.getElem?_eq_some_iff.mp hj).1
      rw [Nat.lt_one_iff.mp hlt]
      exact not_exchanges_list
    | arg hty happ =>
      rw [mem_singleton.mp hty] at happ
      cases happ with
      | here => simp at hj
      | arg hty _ => cases hty
  cases happ with
  | here =>
    intro hex
    cases hex with
    | back hmem _ => cases hmem
    | step hts _ _ _ => exact hts rfl
  | arg hty happ =>
    simp only [mem_cons, not_mem_nil, or_false] at hty
    rcases hty with rfl | rfl
    · cases happ with
      | here => simp at hj
      | arg hty _ => cases hty
    · exact hlist happ hj

/-- The type `bad` is accepted although an unfolding of its constructor `K` has
`bad` to the left of an arrow, and the second parameter of `swap` is answered
positive although it stands there as well. -/
theorem badDecl_accepted :
    Known (knownOf swapDecls) ∧ (Decl.ddata [badDecl]).WellFormed ∧
      knownAddDecl (knownOf swapDecls) (.ddata [badDecl]) = .ok (knownOf badDecls) ∧
      ¬ GroupPositive (knownOf badDecls) [badDecl] ∧ ¬ AnswersPositive (knownOf badDecls) := by
  refine ⟨known_swapDecls, badDecl_wellFormed, rfl, ?_, ?_⟩
  · intro h
    have hpos := h badDecl mem_cons_self _ (mem_cons_of_mem _ mem_cons_self) _
      mem_cons_self .neg badTs [] 3 mem_cons_self (unfolds_swap _ _)
    cases hpos
  · intro h
    exact h swapTs [false, true] rfl 1 tvB rfl rfl ⟨.neg, 3, by decide, unfolds_swap _ _⟩

end Why3

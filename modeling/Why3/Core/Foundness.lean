import Why3.Core.Positivity

/-!
# The inhabitation check

`Value kn ty` are the finite values of a type: elements of type variables and of abstract
types, and applications of constructors. `checkFoundness` looks for a value of each
declared type and gives up a symbol that it meets inside its own expansion, whatever the
arguments. What it finds is described by `Founded`. Every type that it accepts has a value.
The converse holds if the symbols that are given up always have their own parameters for
arguments, and fails for other types. Only what the check looks at counts: it stops at the first
constructor for which it finds a value, and at the first argument for which it finds none.
-/

namespace Why3

open Lib List

variable {kn : KnownMap}
variable {tvs : List TvSymbol} {tl : List Ty} {tss : List TySymbol} {ty : Ty} {ts : TySymbol}
variable {n : ℕ}
variable {α : Type} {tdl : List DataDecl} {tvs' : List TvSymbol} {l : List α} {σ : TvSymbol → Ty}
variable {s : TySymbol} {f : α → Except Exn Bool} {p : α → Prop}

/-! ## Values -/

/-- The finite values of a type. A type variable has an element, and an abstract type has one
if all its arguments do. -/
inductive Value (kn : KnownMap) : Ty → Type where
  | elem (v : TvSymbol) : Value kn (.tyvar v)
  | abstract {ts : TySymbol} {tl : List Ty} (hcs : findConstructors kn ts = .ok [])
      (args : ∀ i : Fin tl.length, Value kn (tl.get i)) : Value kn (.tyapp ts tl)
  | constr {ts : TySymbol} {tl : List Ty} {csl : List Constructor}
      (hcs : findConstructors kn ts = .ok csl) (c : Constructor) (hc : c ∈ csl)
      (args : ∀ i : Fin c.1.lsArgs.length,
        Value kn ((c.1.lsArgs.get i).vMap (paramMap ts tl))) : Value kn (.tyapp ts tl)

def Buildable (kn : KnownMap) (ty : Ty) : Prop := Nonempty (Value kn ty)

def tyParams (ts : TySymbol) : Ty := .tyapp ts (ts.tsArgs.map .tyvar)

theorem Buildable.abstract (hcs : findConstructors kn ts = .ok []) (h : ∀ ty ∈ tl, Buildable kn ty) :
    Buildable kn (.tyapp ts tl) :=
  ⟨.abstract hcs fun i => (h _ (get_mem tl i)).some⟩

theorem Buildable.constr {csl : List Constructor} (hcs : findConstructors kn ts = .ok csl)
    {c : Constructor} (hc : c ∈ csl)
    (h : ∀ ty ∈ c.1.lsArgs, Buildable kn (ty.vMap (paramMap ts tl))) :
    Buildable kn (.tyapp ts tl) :=
  ⟨.constr hcs c hc fun i => (h _ (get_mem _ i)).some⟩

def BuildableIn (kn : KnownMap) : ℕ → Ty → Prop
  | _, .tyvar _ => True
  | 0, .tyapp _ _ => False
  | n + 1, .tyapp ts tl =>
    (findConstructors kn ts = .ok [] ∧ ∀ ty ∈ tl, BuildableIn kn n ty) ∨
    ∃ csl, findConstructors kn ts = .ok csl ∧ ∃ c ∈ csl,
      ∀ ty ∈ c.1.lsArgs, BuildableIn kn n (ty.vMap (paramMap ts tl))

theorem BuildableIn.succ : ∀ {ty : Ty}, BuildableIn kn n ty → BuildableIn kn (n + 1) ty := by
  induction n with
  | zero =>
    rintro (v | ⟨ts, tl⟩) h
    · trivial
    · exact h.elim
  | succ n ih =>
    rintro (v | ⟨ts, tl⟩) h
    · trivial
    · rcases h with ⟨hcs, h⟩ | ⟨csl, hcs, c, hc, h⟩
      · exact .inl ⟨hcs, fun ty hty => ih (h ty hty)⟩
      · exact .inr ⟨csl, hcs, c, hc, fun ty hty => ih (h ty hty)⟩

theorem BuildableIn.mono {m : ℕ} (hle : n ≤ m) (h : BuildableIn kn n ty) : BuildableIn kn m ty :=
  Nat.le_induction h (fun _ _ => BuildableIn.succ) m hle

theorem exists_common_height {l : List Ty} (h : ∀ ty ∈ l, ∃ n, BuildableIn kn n ty) :
    ∃ n, ∀ ty ∈ l, BuildableIn kn n ty := by
  induction l with
  | nil => exact ⟨0, by simp⟩
  | cons a l ih =>
    rw [forall_mem_cons] at h
    obtain ⟨⟨n, hn⟩, h⟩ := h
    obtain ⟨m, hm⟩ := ih h
    refine ⟨max n m, forall_mem_cons.mpr ⟨hn.mono (le_max_left n m), ?_⟩⟩
    exact fun ty hty => (hm ty hty).mono (le_max_right n m)

theorem Buildable.exists_height (h : Buildable kn ty) : ∃ n, BuildableIn kn n ty := by
  obtain ⟨v⟩ := h
  induction v with
  | elem v => exact ⟨0, trivial⟩
  | @abstract ts tl hcs _ ih =>
    have hall : ∀ ty ∈ tl, ∃ n, BuildableIn kn n ty := by
      intro ty hty
      obtain ⟨i, rfl⟩ := get_of_mem hty
      exact ih i
    obtain ⟨n, hn⟩ := exists_common_height hall
    exact ⟨n + 1, .inl ⟨hcs, hn⟩⟩
  | @constr ts tl csl hcs c hc _ ih =>
    have hall : ∀ ty ∈ c.1.lsArgs.map (Ty.vMap (paramMap ts tl)), ∃ n, BuildableIn kn n ty := by
      intro ty hty
      obtain ⟨a, ha, rfl⟩ := mem_map.mp hty
      obtain ⟨i, rfl⟩ := get_of_mem ha
      exact ih i
    obtain ⟨n, hn⟩ := exists_common_height hall
    exact ⟨n + 1, .inr ⟨csl, hcs, c, hc, fun ty hty => hn _ (mem_map_of_mem hty)⟩⟩

/-! ## What the check finds -/

/-- The type has a value if the variables `tvs` have none, and no symbol of `tss` is
expanded. A symbol is not expanded again inside its own expansion. The arguments of a symbol
are looked at outside of its expansion: the parameters of those that have no value are among
`tvs'`. -/
inductive Founded (kn : KnownMap) : List TySymbol → List TvSymbol → Ty → Prop where
  | tyvar {tss : List TySymbol} {tvs : List TvSymbol} {v : TvSymbol} (hv : v ∉ tvs) :
      Founded kn tss tvs (.tyvar v)
  | abstract {tss : List TySymbol} {tvs : List TvSymbol} {ts : TySymbol} {tl : List Ty}
      (hts : ts ∉ tss) (hcs : findConstructors kn ts = .ok [])
      (hargs : ∀ ty ∈ tl, Founded kn tss tvs ty) : Founded kn tss tvs (.tyapp ts tl)
  | data {tss : List TySymbol} {tvs tvs' : List TvSymbol} {ts : TySymbol} {tl : List Ty}
      {csl : List Constructor} {c : Constructor} (hts : ts ∉ tss)
      (hcs : findConstructors kn ts = .ok csl) (hc : c ∈ csl)
      (hargs : ∀ v ∈ ts.tsArgs, v ∉ tvs' → Founded kn tss tvs (paramMap ts tl v))
      (hconstr : ∀ ty ∈ c.1.lsArgs, Founded kn (ts :: tss) tvs' ty) :
      Founded kn tss tvs (.tyapp ts tl)

theorem Founded.anti (h : Founded kn tss tvs ty) (hsub : tvs' ⊆ tvs) : Founded kn tss tvs' ty := by
  induction h generalizing tvs' with
  | tyvar hv => exact .tyvar fun h => hv (hsub h)
  | abstract hts hcs _ ih => exact .abstract hts hcs fun ty hty => ih ty hty hsub
  | data hts hcs hc _ hconstr ih _ =>
    exact .data hts hcs hc (fun v hv hv' => ih v hv hv' hsub) hconstr

theorem buildable_tyvar (v : TvSymbol) : Buildable kn (.tyvar v) := ⟨.elem v⟩

theorem saturated_paramMap (h : (Ty.tyapp ts tl).saturated = true) (v : TvSymbol) :
    (paramMap ts tl v).saturated = true := by
  rcases mem_or_eq_tyvar_of_paramMap ts tl v with hmem | heq
  · exact ((Ty.saturated_tyapp ts tl).mp h).2 _ hmem
  · rw [heq]
    rfl

/-- What is found has a value, with values for the variables that are not empty. -/
theorem Founded.buildable (hkn : ArgsKnown kn) (h : Founded kn tss tvs ty)
    (hsat : ty.saturated = true) (hσ : ∀ v, v ∉ tvs → Buildable kn (σ v)) :
    Buildable kn (ty.vMap σ) := by
  induction h generalizing σ with
  | tyvar hv => exact hσ _ hv
  | abstract hts hcs _ ih =>
    rw [Ty.vMap_tyapp]
    refine .abstract hcs fun ty hty => ?_
    obtain ⟨a, ha, rfl⟩ := mem_map.mp hty
    exact ih a ha (((Ty.saturated_tyapp _ _).mp hsat).2 a ha) hσ
  | @data tss tvs tvs' ts tl csl c hts hcs hc _ _ ih ihc =>
    rw [Ty.vMap_tyapp]
    refine .constr hcs hc fun ty hty => ?_
    refine ihc ty hty (hkn ts ty ⟨csl, hcs, c, hc, hty⟩).saturated fun v hv => ?_
    by_cases hmem : v ∈ ts.tsArgs
    · rw [paramMap_map ((Ty.saturated_tyapp ts tl).mp hsat).1 hmem]
      exact ih v hmem hv (saturated_paramMap hsat v) hσ
    · have hnone : (ts.tsArgs.zip (tl.map (Ty.vMap σ))).lookup v = none := by
        cases hf : (ts.tsArgs.zip (tl.map (Ty.vMap σ))).lookup v with
        | none => rfl
        | some a => exact absurd (of_mem_zip (mem_of_lookup hf)).1 hmem
      rw [paramMap, hnone]
      exact buildable_tyvar v

def FoundedTs (kn : KnownMap) (tss : List TySymbol) (tvs : List TvSymbol) (ts : TySymbol) : Prop :=
  ts ∉ tss ∧ ((findConstructors kn ts = .ok [] ∧ tvs = []) ∨
    ∃ csl, findConstructors kn ts = .ok csl ∧ ∃ c ∈ csl,
      ∀ ty ∈ c.1.lsArgs, Founded kn (ts :: tss) tvs ty)

theorem founded_tyapp (hlen : tl.length = ts.tsArgs.length)
    (hempty : ∀ v, v ∈ tvs' ↔ v ∈ ts.tsArgs ∧ ¬ Founded kn tss tvs (paramMap ts tl v)) :
    Founded kn tss tvs (.tyapp ts tl) ↔ FoundedTs kn tss tvs' ts := by
  constructor
  · intro h
    cases h with
    | abstract hts hcs hargs =>
      refine ⟨hts, .inl ⟨hcs, eq_nil_iff_forall_not_mem.mpr fun v hv => ?_⟩⟩
      obtain ⟨hv, hnot⟩ := (hempty v).mp hv
      obtain ⟨j, -, hj⟩ := exists_paramMap_eq hlen hv
      exact hnot (hargs _ (mem_of_getElem? hj))
    | @data _ _ tvs₁ _ _ csl c hts hcs hc hargs hconstr =>
      refine ⟨hts, .inr ⟨csl, hcs, c, hc, fun ty hty => (hconstr ty hty).anti fun v hv => ?_⟩⟩
      obtain ⟨hv, hnot⟩ := (hempty v).mp hv
      by_contra h
      exact hnot (hargs v hv h)
  · rintro ⟨hts, ⟨hcs, rfl⟩ | ⟨csl, hcs, c, hc, hconstr⟩⟩
    · refine .abstract hts hcs fun ty hty => ?_
      obtain ⟨j, hj, rfl⟩ := mem_iff_getElem.mp hty
      have hv : ts.tsArgs[j]? = some ts.tsArgs[j] := getElem?_eq_getElem (hlen ▸ hj)
      have hnot := mt (hempty ts.tsArgs[j]).mpr not_mem_nil
      rw [paramMap_eq hv (getElem?_eq_getElem hj), not_and, not_not] at hnot
      exact hnot (getElem_mem _)
    · refine .data hts hcs hc (fun v hv hv' => ?_) hconstr
      by_contra h
      exact hv' ((hempty v).mpr ⟨hv, h⟩)

/-! ## The check computes it -/

def Decides (x : Except Exn Bool) (p : Prop) : Prop := ∃ b, x = .ok b ∧ (b = true ↔ p)

theorem forAllM_decides (h : ∀ a ∈ l, Decides (f a) (p a)) :
    Decides (forAllM f l) (∀ a ∈ l, p a) := by
  induction l with
  | nil => exact ⟨true, rfl, by simp⟩
  | cons a l ih =>
    rw [forall_mem_cons] at h
    obtain ⟨⟨b, hb, hp⟩, h⟩ := h
    rw [forAllM, hb]
    cases b with
    | false => exact ⟨false, rfl, by simp at hp; simp [hp]⟩
    | true =>
      obtain ⟨b, hb, hall⟩ := ih h
      exact ⟨b, hb, by simp at hp; simp [hp, hall]⟩

theorem existsM_decides (h : ∀ a ∈ l, Decides (f a) (p a)) :
    Decides (existsM f l) (∃ a ∈ l, p a) := by
  induction l with
  | nil => exact ⟨false, rfl, by simp⟩
  | cons a l ih =>
    rw [forall_mem_cons] at h
    obtain ⟨⟨b, hb, hp⟩, h⟩ := h
    rw [existsM, hb]
    cases b with
    | true => exact ⟨true, rfl, by simp at hp; simp [hp]⟩
    | false =>
      obtain ⟨b, hb, hex⟩ := ih h
      exact ⟨b, hb, by simp at hp; simp [hp, hex]⟩

section CheckType

variable {chk : List TvSymbol → TySymbol → Except Exn Bool} {tss : List TySymbol}
  {tvs : List TvSymbol}

theorem emptyArgs_spec {tvl : List TvSymbol} (hlen : tl.length = tvl.length)
    (h : ∀ ty ∈ tl, Decides (checkType chk tvs ty) (Founded kn tss tvs ty)) :
    ∃ l, emptyArgs chk tvs tvl tl = .ok l ∧
      ∀ v, v ∈ l ↔ ∃ a, (v, a) ∈ tvl.zip tl ∧ ¬ Founded kn tss tvs a := by
  induction tvl generalizing tl with
  | nil =>
    rw [length_nil, length_eq_zero_iff] at hlen
    subst hlen
    exact ⟨[], rfl, by simp⟩
  | cons tv tvl ih =>
    obtain ⟨ty, tl, rfl⟩ := exists_cons_of_length_eq_add_one hlen
    rw [forall_mem_cons] at h
    obtain ⟨⟨b, hb, hp⟩, h⟩ := h
    obtain ⟨l, hl, hspec⟩ := ih (by simpa using hlen) h
    refine ⟨if b then l else tv :: l, ?_, fun v => ?_⟩
    · rw [emptyArgs, hb, hl]
      rfl
    · rw [zip_cons_cons]
      cases b with
      | true =>
        have hty : Founded kn tss tvs ty := hp.mp rfl
        simp only [if_true, hspec, mem_cons, Prod.mk.injEq]
        exact ⟨fun ⟨a, ha, hn⟩ => ⟨a, .inr ha, hn⟩, fun ⟨a, ha, hn⟩ =>
          ⟨a, ha.resolve_left fun heq => hn (heq.2 ▸ hty), hn⟩⟩
      | false =>
        have hty : ¬ Founded kn tss tvs ty := fun h => Bool.false_ne_true (hp.mpr h)
        simp only [Bool.false_eq_true, if_false, mem_cons, hspec, Prod.mk.injEq]
        constructor
        · rintro (rfl | ⟨a, ha, hn⟩)
          · exact ⟨ty, .inl ⟨rfl, rfl⟩, hty⟩
          · exact ⟨a, .inr ha, hn⟩
        · rintro ⟨a, ⟨rfl, rfl⟩ | ha, hn⟩
          · exact .inl rfl
          · exact .inr ⟨a, ha, hn⟩

theorem mem_zip_params (hlen : tl.length = ts.tsArgs.length) {v : TvSymbol} {a : Ty} :
    (v, a) ∈ ts.tsArgs.zip tl ↔ v ∈ ts.tsArgs ∧ paramMap ts tl v = a := by
  constructor
  · intro h
    obtain ⟨j, hj⟩ := mem_iff_getElem?.mp h
    obtain ⟨hv, ha⟩ := getElem?_zip_eq_some.mp hj
    exact ⟨mem_of_getElem? hv, paramMap_eq hv ha⟩
  · rintro ⟨hv, rfl⟩
    obtain ⟨j, hj, ha⟩ := exists_paramMap_eq hlen hv
    exact mem_of_getElem? (getElem?_zip_eq_some.mpr ⟨hj, ha⟩)

theorem checkType_decides (ty : Ty) (hsat : ty.saturated = true)
    (hchk : ∀ ts ∈ ty.syms, ∀ tvs' ⊆ ts.tsArgs, Decides (chk tvs' ts) (FoundedTs kn tss tvs' ts)) :
    Decides (checkType chk tvs ty) (Founded kn tss tvs ty) := by
  induction ty using Ty.inductionOn with
  | hvar v =>
    refine ⟨decide (v ∉ tvs), rfl, ?_⟩
    rw [decide_eq_true_iff]
    exact ⟨.tyvar, fun h => by cases h; assumption⟩
  | happ ts tl ih =>
    obtain ⟨hlen, hsat⟩ := (Ty.saturated_tyapp ts tl).mp hsat
    have hargs : ∀ ty ∈ tl, Decides (checkType chk tvs ty) (Founded kn tss tvs ty) :=
      fun ty hty => ih ty hty (hsat ty hty) fun ts' hts' =>
        hchk ts' ((Ty.mem_syms_tyapp ts tl ts').mpr (.inr ⟨ty, hty, hts'⟩))
    obtain ⟨l, hl, hspec⟩ := emptyArgs_spec hlen hargs
    have hempty : ∀ v, v ∈ l ↔ v ∈ ts.tsArgs ∧ ¬ Founded kn tss tvs (paramMap ts tl v) := by
      intro v
      simp [hspec, mem_zip_params hlen, and_assoc]
    rw [founded_tyapp hlen hempty, checkType, hl]
    exact hchk ts (by simp) l fun v hv => ((hempty v).mp hv).1

end CheckType

theorem checkTsFuel_decides (hkn : ArgsKnown kn) : ∀ (fuel : ℕ) (tss : List TySymbol)
    (tvs : List TvSymbol) (ts : TySymbol), tss.Nodup → (∀ s ∈ tss, TypeKnown kn s) →
    TypeKnown kn ts → kn.bindings.length < fuel + tss.length →
    Decides (checkTsFuel kn fuel tss tvs ts) (FoundedTs kn tss tvs ts) := by
  intro fuel
  induction fuel with
  | zero =>
    intro tss tvs ts hnodup htss _ hfuel
    have hle := length_le_of_typeKnown hnodup htss
    omega
  | succ fuel ih =>
    intro tss tvs ts hnodup htss hts hfuel
    rw [checkTsFuel]
    by_cases hmem : ts ∈ tss
    · rw [if_pos hmem]
      exact ⟨false, rfl, by simp [FoundedTs, hmem]⟩
    · obtain ⟨csl, hcs⟩ := hts
      have hnodup' : (ts :: tss).Nodup := nodup_cons.mpr ⟨hmem, hnodup⟩
      have htss' : ∀ s ∈ ts :: tss, TypeKnown kn s :=
        forall_mem_cons.mpr ⟨⟨csl, hcs⟩, htss⟩
      have hdec : Decides (existsM (fun c => forAllM (checkType (checkTsFuel kn fuel (ts :: tss)) tvs)
          c.1.lsArgs) csl) (∃ c ∈ csl, ∀ ty ∈ c.1.lsArgs, Founded kn (ts :: tss) tvs ty) := by
        refine existsM_decides fun c hc => forAllM_decides fun ty hty => ?_
        have harg := hkn ts ty ⟨csl, hcs, c, hc, hty⟩
        refine checkType_decides ty harg.saturated fun ts' hts' tvs' _ => ?_
        refine ih (ts :: tss) tvs' ts' hnodup' htss' (harg.known ts' hts') ?_
        rw [length_cons]
        omega
      rw [if_neg hmem, hcs]
      cases csl with
      | nil => exact ⟨tvs.isEmpty, rfl, by simp [FoundedTs, hmem, hcs]⟩
      | cons c csl =>
        obtain ⟨b, hb, hspec⟩ := hdec
        refine ⟨b, hb, hspec.trans ⟨fun h => ⟨hmem, .inr ⟨_, hcs, h⟩⟩, ?_⟩⟩
        rintro ⟨-, ⟨hnil, -⟩ | ⟨csl', hcs', h⟩⟩
        · simp [hcs] at hnil
        · rw [hcs, Except.ok.injEq] at hcs'
          exact hcs' ▸ h

theorem checkTs_decides (hkn : ArgsKnown kn) (hts : TypeKnown kn ts) :
    Decides (checkTs kn [] [] ts) (Founded kn [] [] (tyParams ts)) := by
  have hlen : (ts.tsArgs.map Ty.tyvar).length = ts.tsArgs.length := length_map _
  have hempty : ∀ v, v ∈ [] ↔ v ∈ ts.tsArgs ∧
      ¬ Founded kn [] [] (paramMap ts (ts.tsArgs.map .tyvar) v) := by
    intro v
    have hv := vMap_paramMap_tyvar ts (.tyvar v)
    rw [Ty.vMap_tyvar] at hv
    rw [hv]
    simp [Founded.tyvar]
  rw [tyParams, founded_tyapp hlen hempty]
  exact checkTsFuel_decides hkn _ [] [] ts nodup_nil (by simp) hts (by simp)

/-! ## What the check looks at -/

/-- The check looks at an argument of a constructor of the symbol, the parameters `tvs` having no
value: there is none with the constructors before, and there are values for the arguments
before. -/
def LooksAt (kn : KnownMap) (tss : List TySymbol) (tvs : List TvSymbol) (ts : TySymbol)
    (arg : Ty) : Prop :=
  ∃ pre c post l₁ l₂, findConstructors kn ts = .ok (pre ++ c :: post) ∧
    (∀ c' ∈ pre, ∃ a ∈ c'.1.lsArgs, ¬ Founded kn (ts :: tss) tvs a) ∧
    c.1.lsArgs = l₁ ++ arg :: l₂ ∧ ∀ a ∈ l₁, Founded kn (ts :: tss) tvs a

/-- A type that is looked at, with the symbols under expansion and the variables without a
value. -/
structure Site where
  tss : List TySymbol
  tvs : List TvSymbol
  ty : Ty

/-- An application in the type is expanded, and an argument of a constructor is looked at. -/
inductive Enters (kn : KnownMap) : Site → TySymbol → List Ty → Site → Prop where
  | expand {tss : List TySymbol} {tvs tvs' : List TvSymbol} {ty arg : Ty} {ts : TySymbol}
      {tl : List Ty} (happ : AppIn ty ts tl) (hts : ts ∉ tss)
      (hempty : ∀ v, v ∈ tvs' ↔ v ∈ ts.tsArgs ∧ ¬ Founded kn tss tvs (paramMap ts tl v))
      (harg : LooksAt kn tss tvs' ts arg) : Enters kn ⟨tss, tvs, ty⟩ ts tl ⟨ts :: tss, tvs', arg⟩

/-- The check comes to the symbol `s`, with the arguments `tl` over the variables of the type. -/
inductive Meets (kn : KnownMap) : Site → TySymbol → List Ty → Prop where
  | app {x : Site} {s : TySymbol} {tl : List Ty} (h : AppIn x.ty s tl) : Meets kn x s tl
  | enter {x y : Site} {ts s : TySymbol} {tl tl' : List Ty} (henter : Enters kn x ts tl y)
      (h : Meets kn y s tl') : Meets kn x s (tl'.map (Ty.vMap (paramMap ts tl)))

/-- The symbols that are met inside their own expansion, and given up, have their own parameters
for arguments, at all types that are looked at on the way from `x`. -/
def GivesUpSame (kn : KnownMap) (x : Site) : Prop :=
  ∀ y, Relation.ReflTransGen (fun x y => ∃ ts tl, Enters kn x ts tl y) x y →
    ∀ ts tl z, Enters kn y ts tl z → ∀ tl', Meets kn z ts tl' → tl' = ts.tsArgs.map .tyvar

theorem Enters.arg {y : Site} {tl' : List Ty} (hty : ty ∈ tl)
    (h : Enters kn ⟨tss, tvs, ty⟩ s tl' y) : Enters kn ⟨tss, tvs, .tyapp ts tl⟩ s tl' y := by
  cases h with
  | expand happ hts hempty harg => exact .expand (.arg hty happ) hts hempty harg

theorem Meets.arg {tl' : List Ty} (hty : ty ∈ tl) (h : Meets kn ⟨tss, tvs, ty⟩ s tl') :
    Meets kn ⟨tss, tvs, .tyapp ts tl⟩ s tl' := by
  cases h with
  | app h => exact .app (.arg hty h)
  | enter henter h => exact .enter (henter.arg hty) h

theorem GivesUpSame.enter {x y : Site} (h : GivesUpSame kn x) (hy : Enters kn x ts tl y) :
    GivesUpSame kn y :=
  fun z hz => h z (.head ⟨ts, tl, hy⟩ hz)

theorem GivesUpSame.arg (h : GivesUpSame kn ⟨tss, tvs, .tyapp ts tl⟩) (hty : ty ∈ tl) :
    GivesUpSame kn ⟨tss, tvs, ty⟩ := by
  intro y hy s tl' z hz
  rcases hy.cases_head with rfl | ⟨y', ⟨s', tl'', hy'⟩, hyy'⟩
  · exact h _ .refl s tl' z (hz.arg hty)
  · exact h y (.head ⟨s', tl'', hy'.arg hty⟩ hyy') s tl' z hz

/-- If no constructor gives a value, the check looks at an argument of each one for which it finds
none. -/
theorem exists_looksAt {csl : List Constructor} {c : Constructor}
    (hcs : findConstructors kn ts = .ok csl) (hc : c ∈ csl)
    (hno : ∀ c ∈ csl, ∃ a ∈ c.1.lsArgs, ¬ Founded kn (ts :: tss) tvs a) :
    ∃ arg ∈ c.1.lsArgs, LooksAt kn tss tvs ts arg ∧ ¬ Founded kn (ts :: tss) tvs arg := by
  classical
  obtain ⟨pre, post, rfl⟩ := append_of_mem hc
  have hfirst : ∀ l : List Ty, (∃ a ∈ l, ¬ Founded kn (ts :: tss) tvs a) →
      ∃ l₁ arg l₂, l = l₁ ++ arg :: l₂ ∧ (∀ a ∈ l₁, Founded kn (ts :: tss) tvs a) ∧
        ¬ Founded kn (ts :: tss) tvs arg := by
    rintro l ⟨a, ha, hnot⟩
    have hsome : (l.find? fun a => decide (¬ Founded kn (ts :: tss) tvs a)).isSome :=
      find?_isSome.mpr ⟨a, ha, decide_eq_true hnot⟩
    obtain ⟨arg, hfind⟩ := Option.isSome_iff_exists.mp hsome
    obtain ⟨harg, l₁, l₂, rfl, hl⟩ := find?_eq_some_iff_append.mp hfind
    exact ⟨l₁, arg, l₂, rfl, fun a ha => by simpa using hl a ha, of_decide_eq_true harg⟩
  obtain ⟨l₁, arg, l₂, hl, hbefore, hnot⟩ := hfirst c.1.lsArgs (hno c hc)
  exact ⟨arg, by simp [hl], ⟨pre, c, post, l₁, l₂, hcs,
    fun c' hc' => hno c' (mem_append_left _ hc'), hl, hbefore⟩, hnot⟩

theorem BuildableIn.exists_least (h : BuildableIn kn n (.tyapp ts tl)) :
    ∃ k < n, BuildableIn kn (k + 1) (.tyapp ts tl) ∧ ¬ BuildableIn kn k (.tyapp ts tl) := by
  induction n with
  | zero => exact h.elim
  | succ n ih =>
    by_cases hn : BuildableIn kn n (.tyapp ts tl)
    · obtain ⟨k, hk, hval⟩ := ih hn
      exact ⟨k, by omega, hval⟩
    · exact ⟨n, by omega, h, hn⟩

section

variable (hkn : ArgsKnown kn)
include hkn

/-- If the symbols that are given up have their own parameters for arguments, a value of the type
is found. The variables stand for types of which those with smaller values are not empty, and the
symbols under expansion do not come back with a smaller value. -/
theorem founded_of_buildableIn (hsat : ty.saturated = true) (hsame : GivesUpSame kn ⟨tss, tvs, ty⟩)
    (hval : BuildableIn kn n (ty.vMap σ))
    (htvs : ∀ v ∈ ty.freevars, BuildableIn kn n (σ v) → v ∉ tvs)
    (htss : ∀ s ∈ tss, ∀ tl, Meets kn ⟨tss, tvs, ty⟩ s tl →
      ¬ BuildableIn kn n ((Ty.tyapp s tl).vMap σ)) : Founded kn tss tvs ty := by
  classical
  induction n using Nat.strong_induction_on generalizing ty σ tss tvs with
  | _ n ih =>
    cases ty with
    | tyvar v => exact .tyvar (htvs v (by simp) hval)
    | tyapp ts tl =>
      obtain ⟨hlen, hsatl⟩ := (Ty.saturated_tyapp ts tl).mp hsat
      have hts : ts ∉ tss := fun hmem => htss ts hmem tl (.app (.here ts tl)) hval
      rw [Ty.vMap_tyapp] at hval
      obtain ⟨k, hk, hval, hleast⟩ := hval.exists_least
      -- an argument with a value that is smaller than that of the application is found
      have hargs : ∀ ty ∈ tl, BuildableIn kn k (ty.vMap σ) → Founded kn tss tvs ty := by
        intro ty hty hv
        refine ih k hk (hsatl ty hty) (hsame.arg hty) hv ?_ ?_
        · exact fun v hvf hv => htvs v ((Ty.mem_freevars_tyapp ts tl v).mpr ⟨ty, hty, hvf⟩)
            (hv.mono hk.le)
        · exact fun s hs tl' h hv => htss s hs tl' (h.arg hty) (hv.mono hk.le)
      rcases hval with ⟨hcs, hval⟩ | ⟨csl, hcs, c, hc, hval⟩
      · exact .abstract hts hcs fun ty hty => hargs ty hty (hval _ (mem_map_of_mem hty))
      · -- the parameters of the other arguments are empty inside the expansion
        obtain ⟨tvs', hempty⟩ : ∃ tvs', ∀ v, v ∈ tvs' ↔
            v ∈ ts.tsArgs ∧ ¬ Founded kn tss tvs (paramMap ts tl v) :=
          ⟨ts.tsArgs.filter fun v => ¬ Founded kn tss tvs (paramMap ts tl v), by simp⟩
        refine (founded_tyapp hlen hempty).mpr ⟨hts, .inr ⟨csl, hcs, ?_⟩⟩
        -- otherwise an argument of the constructor that gives the value is looked at
        by_contra hno
        push Not at hno
        obtain ⟨arg, harg, hlook, hnot⟩ := exists_looksAt hcs hc hno
        have henter : Enters kn ⟨tss, tvs, .tyapp ts tl⟩ ts tl ⟨ts :: tss, tvs', arg⟩ :=
          .expand (.here ts tl) hts hempty hlook
        have hwf := hkn ts arg ⟨csl, hcs, c, hc, harg⟩
        have hparam : ∀ v ∈ ts.tsArgs,
            paramMap ts (tl.map (Ty.vMap σ)) v = (paramMap ts tl v).vMap σ :=
          fun v hv => paramMap_map hlen hv (Ty.vMap σ)
        have hvarg := hval arg harg
        rw [Ty.vMap_congr arg fun v hv => hparam v (hwf.freevars v hv)] at hvarg
        refine hnot (ih k hk hwf.saturated (hsame.enter henter) hvarg ?_ ?_)
        · intro v hvf hv hmem
          obtain ⟨hv', hnot⟩ := (hempty v).mp hmem
          obtain ⟨j, -, hj⟩ := exists_paramMap_eq hlen hv'
          exact hnot (hargs _ (mem_of_getElem? hj) hv)
        · intro s hs tl' hmeet hv
          rw [← Ty.vMap_vMap] at hv
          rcases mem_cons.mp hs with rfl | hs
          · -- the symbol itself comes back as it is
            rw [hsame _ .refl s tl _ henter tl' hmeet, vMap_paramMap hlen, Ty.vMap_tyapp] at hv
            exact hleast hv
          · rw [Ty.vMap_tyapp] at hv
            exact htss s hs _ (.enter henter hmeet) (hv.mono hk.le)

/-- The value of a declared type is found if only symbols with their own parameters are given
up. -/
theorem founded_of_givesUpSame (hsame : GivesUpSame kn ⟨[], [], tyParams ts⟩)
    (h : Buildable kn (tyParams ts)) : Founded kn [] [] (tyParams ts) := by
  obtain ⟨n, hn⟩ := h.exists_height
  rw [← Ty.vMap_tyvar_eq_self (tyParams ts)] at hn
  exact founded_of_buildableIn hkn (saturated_tyapp_tyvar ts) hsame hn (by simp) (by simp)

theorem Founded.buildable_tyParams (h : Founded kn [] [] (tyParams ts)) :
    Buildable kn (tyParams ts) := by
  have hval := h.buildable hkn (saturated_tyapp_tyvar ts) (σ := .tyvar) fun v _ => buildable_tyvar v
  rwa [Ty.vMap_tyvar_eq_self] at hval

/-! ## Exactness -/

def RaisesNonFounded (kn : KnownMap) (tdl : List DataDecl) : Prop :=
  ∃ ts, checkFoundness kn (.ddata tdl) = .error (.nonFoundedTypeDecl ts)

theorem checkFoundness_cases (htdl : ∀ td ∈ tdl, TypeKnown kn td.1) :
    (checkFoundness kn (.ddata tdl) = .ok () ∧ ∀ td ∈ tdl, Founded kn [] [] (tyParams td.1)) ∨
      (RaisesNonFounded kn tdl ∧ ∃ td ∈ tdl, ¬ Founded kn [] [] (tyParams td.1)) := by
  induction tdl with
  | nil => exact .inl ⟨rfl, by simp⟩
  | cons td tdl ih =>
    rw [forall_mem_cons] at htdl
    obtain ⟨b, hb, hspec⟩ := checkTs_decides hkn htdl.1
    have hcons : checkFoundness kn (.ddata (td :: tdl)) = ((do
        if ← checkTs kn [] [] td.1 then .ok () else .error (.nonFoundedTypeDecl td.1)) >>=
        fun _ => checkFoundness kn (.ddata tdl)) := rfl
    rw [RaisesNonFounded, hcons, hb]
    cases b with
    | false =>
      refine .inr ⟨⟨td.1, rfl⟩, td, mem_cons_self, fun h => ?_⟩
      exact Bool.false_ne_true (hspec.mpr h)
    | true =>
      rcases ih htdl.2 with ⟨hok, hall⟩ | ⟨hraise, td', htd', hnot⟩
      · exact .inl ⟨hok, forall_mem_cons.mpr ⟨hspec.mp rfl, hall⟩⟩
      · exact .inr ⟨hraise, td', mem_cons_of_mem _ htd', hnot⟩

theorem raisesNonFounded_iff (htdl : ∀ td ∈ tdl, TypeKnown kn td.1) :
    RaisesNonFounded kn tdl ↔ ∃ td ∈ tdl, ¬ Founded kn [] [] (tyParams td.1) := by
  rcases checkFoundness_cases hkn htdl with ⟨hok, hall⟩ | ⟨hraise, hex⟩
  · constructor
    · rintro ⟨ts, hts⟩
      rw [hok] at hts
      cases hts
    · rintro ⟨td, htd, hnot⟩
      exact absurd (hall td htd) hnot
  · exact ⟨fun _ => hex, fun _ => hraise⟩

end

/-- The exception is raised if and only if some declared type has no value. -/
def FoundnessExact (kn : KnownMap) (tdl : List DataDecl) : Prop :=
  RaisesNonFounded kn tdl ↔ ∃ td ∈ tdl, ¬ Buildable kn (tyParams td.1)

def nestTs : TySymbol := ⟨⟨113⟩, [tvA], .noDef, nodup_singleton tvA⟩

/-- `type nest 'a = Leaf 'a | Nest (nest int)`. -/
def nestDecl : DataDecl :=
  (nestTs,
    [(⟨⟨114⟩, [.tyvar tvA], some (tyParams nestTs), 2⟩, [none]),
      (⟨⟨115⟩, [.tyapp nestTs [tyInt]], some (tyParams nestTs), 2⟩, [none])])

def nestDecls : List Decl := [.dtype tsInt.embed, .ddata [nestDecl]]

theorem known_nestDecls : Known (knownOf nestDecls) := by
  refine known_foldlM .empty (show ∀ d ∈ nestDecls, d.WellFormed from ?_) rfl
  rw [nestDecls, forall_mem_cons, forall_mem_singleton]
  exact ⟨trivial, rfl, by decide⟩

/-- If the arguments that are looked at are variables or the type itself, only the symbol itself is
given up. -/
theorem givesUpSame_tyParams
    (h : ∀ arg, LooksAt kn [] [] ts arg → (∃ v, arg = .tyvar v) ∨ arg = tyParams ts) :
    GivesUpSame kn ⟨[], [], tyParams ts⟩ := by
  -- what is entered first, and that nothing is entered then
  have henters : ∀ {s tl y}, Enters kn ⟨[], [], tyParams ts⟩ s tl y →
      s = ts ∧ y.tss = [ts] ∧ ((∃ v, y.ty = .tyvar v) ∨ y.ty = tyParams ts) := by
    intro s tl y hy
    cases hy with
    | @expand _ _ tvs _ arg _ _ happ _ hempty harg =>
      obtain ⟨rfl, rfl⟩ := appIn_params happ
      have htvs : tvs = [] := eq_nil_iff_forall_not_mem.mpr fun v hv => by
        obtain ⟨-, hnot⟩ := (hempty v).mp hv
        have hpar := vMap_paramMap_tyvar s (.tyvar v)
        rw [Ty.vMap_tyvar] at hpar
        rw [hpar] at hnot
        exact hnot (.tyvar not_mem_nil)
      exact ⟨rfl, rfl, h arg (htvs ▸ harg)⟩
  have happ : ∀ {y : Site}, ((∃ v, y.ty = .tyvar v) ∨ y.ty = tyParams ts) → ∀ {s tl},
      AppIn y.ty s tl → s = ts ∧ tl = ts.tsArgs.map .tyvar := by
    rintro ⟨tss, tvs, ty⟩ (⟨v, rfl⟩ | rfl) s tl h
    · cases h
    · exact appIn_params h
  have hstop : ∀ {y : Site}, y.tss = [ts] → ((∃ v, y.ty = .tyvar v) ∨ y.ty = tyParams ts) →
      ∀ {s tl z}, ¬ Enters kn y s tl z := by
    intro y hstack hty s tl z hz
    cases hz with
    | @expand tss _ _ _ _ _ _ h' hs _ _ =>
      obtain ⟨rfl, -⟩ := happ hty h'
      have htss : tss = [s] := hstack
      exact hs (htss ▸ mem_singleton_self s)
  intro y hy s tl z hz tl' hmeet
  rcases hy.cases_head with rfl | ⟨y', ⟨s', tl'', hy'⟩, hyy'⟩
  · obtain ⟨rfl, hstack, hty⟩ := henters hz
    cases hmeet with
    | app h => exact (happ hty h).2
    | enter h _ => exact absurd h (hstop hstack hty)
  · obtain ⟨-, hstack, hty⟩ := henters hy'
    rcases hyy'.cases_head with rfl | ⟨_, ⟨_, _, h⟩, -⟩
    · exact absurd hz (hstop hstack hty)
    · exact absurd h (hstop hstack hty)

def useTs : TySymbol := ⟨⟨116⟩, [], .noDef, nodup_nil⟩

/-- `type use = Use (nest use)`. -/
def useDecl : DataDecl :=
  (useTs, [(⟨⟨117⟩, [.tyapp nestTs [tyParams useTs]], some (tyParams useTs), 1⟩, [none])])

def useKnown : KnownMap :=
  match knownAddDeclBase (knownOf nestDecls) (.ddata [useDecl]) with
  | .ok kn => kn
  | .error _ => .empty

theorem buildable_use : Buildable useKnown (tyParams useTs) := by
  have hint : Buildable useKnown tyInt := .abstract rfl (by simp)
  have hcs : findConstructors useKnown nestTs = .ok nestDecl.2 := rfl
  have hcs' : findConstructors useKnown useTs = .ok useDecl.2 := rfl
  have hleaf : Buildable useKnown (.tyapp nestTs [tyInt]) := by
    refine .constr hcs mem_cons_self fun ty hty => ?_
    rw [mem_singleton] at hty
    exact hty ▸ hint
  have hnest : Buildable useKnown (.tyapp nestTs [tyParams useTs]) := by
    refine .constr hcs (mem_cons_of_mem _ mem_cons_self)
      fun ty hty => ?_
    rw [mem_singleton] at hty
    exact hty ▸ hleaf
  refine .constr hcs' mem_cons_self fun ty hty => ?_
  rw [mem_singleton] at hty
  exact hty ▸ hnest

end Why3

import Why3.Logic.Models

/-!
# Interpretations of new symbols

Symbols are numbered in the order of their creation. A symbol that is created later than
all symbols of a declaration may get any meaning without changing that of the
declaration. A new constant can have any value of its type if the type has no variables:
a constant of a type with variables has to have a value for all types at once.
-/

namespace Why3

open Lib Term List

variable {t : Term} {ty : Ty} {n n' : ℕ}
variable {S : DataSig} {d : Decl} {c : LSymbol} {vl : List VSymbol} {f : Term}

/-- The symbol was created before the counter had the value `n`, unless it stands for a
type or a proposition. -/
def Sym.Below (n : ℕ) : Sym → Prop
  | .ls s => s.lsName.idTag < n
  | _ => True

def Term.Below (n : ℕ) (t : Term) : Prop := ∀ s ∈ symsTerm t, s.Below n

def Decl.Below (n : ℕ) (d : Decl) : Prop := ∀ s ∈ d.subject, s.Below n

def DataSig.Below (n : ℕ) (S : DataSig) : Prop :=
  ∀ ts, ∀ cs ∈ S.constrs ts, (Sym.ls cs).Below n

theorem Sym.Below.mono {s : Sym} (hs : s.Below n) (hn : n ≤ n') : s.Below n' := by
  cases s with
  | ls s => exact Nat.lt_of_lt_of_le hs hn
  | ts s => trivial
  | pr s => trivial

theorem below_of_mem_symsTy : ∀ s ∈ symsTy ty, s.Below n := by
  intro s hs
  obtain ⟨ts, _, rfl⟩ := mem_map.mp hs
  trivial

theorem Term.Below.mono (ht : t.Below n) (hn : n ≤ n') : t.Below n' :=
  fun s hs => (ht s hs).mono hn

theorem Decl.Below.mono (hd : d.Below n) (hn : n ≤ n') : d.Below n' :=
  fun s hs => (hd s hs).mono hn

theorem DataSig.Below.mono (hS : S.Below n) (hn : n ≤ n') : S.Below n' :=
  fun ts cs hcs => (hS ts cs hcs).mono hn

/-- A term of symbols that were created before, without type variables. -/
def Term.Settled (n : ℕ) (t : Term) : Prop := t.Below n ∧ t.tyFreevars = []

theorem Term.Settled.mono (h : t.Settled n) (hn : n ≤ n') : t.Settled n' :=
  ⟨h.1.mono hn, h.2⟩

def VSymbol.Made (n : ℕ) (v : VSymbol) : Prop := v.vsName.idTag < n ∧ v.vsTy.freevars = []

structure Term.Made (n : ℕ) (t : Term) : Prop where
  settled : t.Settled n
  vars : ∀ v ∈ t.freeVars, v.vsName.idTag < n

namespace Term.Made

variable {n n' : ℕ}

theorem mono (h : t.Made n) (hn : n ≤ n') : t.Made n' :=
  ⟨h.settled.mono hn, fun v hv => (h.vars v hv).trans_le hn⟩

theorem of_forall (hsyms : t.Below n) (hty : ∀ x ∈ t.tyFreevars, False)
    (hvars : ∀ v ∈ t.freeVars, v.vsName.idTag < n) : t.Made n :=
  ⟨⟨hsyms, eq_nil_iff_forall_not_mem.mpr hty⟩, hvars⟩

theorem tyFreevars (h : t.Made n) : ∀ x ∈ t.tyFreevars, False := by
  rw [h.settled.2]
  exact fun x hx => not_mem_nil hx

theorem openVars (h : t.Made n) (hvl : ∀ v ∈ vl, v.Made n) : (openVars vl t).Made n := by
  refine .of_forall ?_ ?_ ?_
  · exact collects_syms.openVars (fun _ _ => below_of_mem_symsTy) h.settled.1
  · refine collects_tyFreevars.openVars (fun v hv x hx => ?_) h.tyFreevars
    rw [(hvl v hv).2] at hx
    cases hx
  · intro v hv
    rcases mem_freeVars_openVars hv with hv | hv
    · exact h.vars v hv
    · exact (hvl v hv).1

theorem tSubst {s : VSymbol → Option Term} (h : t.Made n) (hs : ∀ v u, s v = some u → u.Made n) :
    (tSubst s t).Made n := by
  refine .of_forall ?_ ?_ ?_
  · exact collects_syms.tSubst (fun v u hu => (hs v u hu).settled.1) h.settled.1
  · exact collects_tyFreevars.tSubst (fun v u hu => (hs v u hu).tyFreevars) h.tyFreevars
  · intro v hv
    rcases mem_freeVars_tSubst.mp hv with ⟨u, _, r, hr, hv⟩ | ⟨hv, _⟩
    · exact (hs u r hr).vars v hv
    · exact h.vars v hv

theorem tQuantClose {q : Quant} {trl : List (List Term)} (h : f.Made n)
    (htrl : ∀ tl ∈ trl, ∀ t ∈ tl, t.Made n) (hvl : ∀ v ∈ vl, v.Made n) :
    (tQuantClose q vl trl f).Made n := by
  refine .of_forall ?_ ?_ ?_
  · exact collects_syms.tQuantClose (fun _ _ => below_of_mem_symsTy)
      (fun tl htl t ht => (htrl tl htl t ht).settled.1) h.settled.1
  · refine collects_tyFreevars.tQuantClose (fun v hv x hx => ?_)
      (fun tl htl t ht => (htrl tl htl t ht).tyFreevars) h.tyFreevars
    rw [(hvl v hv).2] at hx
    cases hx
  · intro v hv
    rcases mem_freeVars_tQuantClose hv with ⟨tl, htl, t, ht, hv⟩ | hv
    · exact (htrl tl htl t ht).vars v hv
    · exact h.vars v hv

end Term.Made

namespace Interp

variable {D : Type} {I I' I'' : Interp D} {τ : TyVal} {ρ : VSymbol → D} {n n' : ℕ}

def AgreeBelow (n : ℕ) (I I' : Interp D) : Prop := AgreeOn (fun ls => (Sym.ls ls).Below n) I I'

namespace AgreeBelow

theorem refl (n : ℕ) (I : Interp D) : AgreeBelow n I I := AgreeOn.refl _ I

theorem trans (h : AgreeBelow n I I') (h' : AgreeBelow n' I' I'') (hn : n ≤ n') :
    AgreeBelow n I I'' :=
  (AgreeOn.trans h h').mono fun _ hls => ⟨hls, hls.mono hn⟩

theorem mono (h : AgreeBelow n' I I') (hn : n ≤ n') : AgreeBelow n I I' :=
  AgreeOn.mono h fun _ hls => hls.mono hn

section

variable (h : AgreeBelow n I I')
include h

theorem eval (ht : t.Below n) (b : List D) : I'.eval τ ρ b t = I.eval τ ρ b t :=
  AgreeOn.eval h t b fun _ hls => ht _ hls

theorem holds (ht : t.Below n) : I'.Holds τ ρ t ↔ I.Holds τ ρ t :=
  AgreeOn.holds h fun _ hls => ht _ hls

theorem valid (ht : t.Below n) (hI : I.Valid t) : I'.Valid t :=
  AgreeOn.valid h (fun _ hls => ht _ hls) hI

theorem symm : AgreeBelow n I' I := AgreeOn.symm h

theorem satisfies (hd : d.Below n) (hI : I.Satisfies d) : I'.Satisfies d :=
  AgreeOn.satisfies h (fun _ hls => hd _ hls) hI

theorem typed {tyl : List Ty} {ds : List D} : I'.Typed τ tyl ds ↔ I.Typed τ tyl ds :=
  AgreeOn.typed h tyl ds

theorem typedVal : I'.TypedVal τ ρ ↔ I.TypedVal τ ρ :=
  AgreeOn.typedVal h

theorem free (hS : S.Below n) (hI : I.Free S) : I'.Free S :=
  free_iff.mpr fun ts hne => AgreeOn.freeType h (hS ts) (free_iff.mp hI ts hne)

end

end AgreeBelow

/-! ## New constants -/

def withConst (I : Interp D) (c : LSymbol) (d : D) : Interp D :=
  { I with fn := fun ls ty ds => if ls = c then d else I.fn ls ty ds }

@[simp] theorem withConst_fn_self (c : LSymbol) (d : D) (ty : Ty) (ds : List D) :
    (I.withConst c d).fn c ty ds = d :=
  if_pos rfl

theorem agreeBelow_withConst (hc : n ≤ c.lsName.idTag) (d : D) :
    AgreeBelow n I (I.withConst c d) where
  carrier := rfl
  fn ls hls := by
    have hne : ls ≠ c := by
      rintro rfl
      exact absurd hls (Nat.not_lt.mpr hc)
    funext ty ds
    exact if_neg hne
  pr _ _ := rfl
  lit := rfl
  eps := rfl
  dflt := rfl

theorem vMap_of_closed (hty : ty.freevars = []) (τ τ' : TyVal) : ty.vMap τ = ty.vMap τ' :=
  Ty.vMap_congr ty fun _ hv => absurd hv (hty ▸ not_mem_nil)

theorem Sound.withConst (hI : I.Sound) (hc : c.lsValue = some ty) (hty : ty.freevars = []) {d : D}
    (hd : d ∈ I.carrier (ty.vMap τ)) : (I.withConst c d).Sound where
  nonempty := hI.nonempty
  fn ls vty τ' ds hls hds := by
    by_cases h : ls = c
    · subst h
      rw [hc] at hls
      obtain rfl := Option.some.inj hls
      rw [withConst_fn_self, vMap_of_closed hty τ' τ]
      exact hd
    · have := hI.fn ls vty τ' ds hls hds
      simpa [Interp.withConst, h] using this
  lit := hI.lit
  eps_mem := hI.eps_mem
  eps_spec := hI.eps_spec
  eps_local := hI.eps_local
  equ := hI.equ

/-! ## Formulas without variables -/

theorem Sound.exists_typedVal (hI : I.Sound) (τ : TyVal) : ∃ ρ, I.TypedVal τ ρ :=
  ⟨fun v => (hI.nonempty (v.vsTy.vMap τ)).some, fun v => (hI.nonempty (v.vsTy.vMap τ)).some_mem⟩

theorem eval_ground (hty : t.tyFreevars = []) (hfv : t.freeVars = []) (τ τ' : TyVal)
    (ρ ρ' : VSymbol → D) (b : List D) : I.eval τ ρ b t = I.eval τ' ρ' b t := by
  have hvars : ∀ v ∈ t.freeVars, ρ v = ρ' v := fun v hv => absurd hv (hfv ▸ not_mem_nil)
  rw [eval_congr t b hvars]
  exact eval_tyCongr fun v hv => absurd hv (hty ▸ not_mem_nil)

theorem valid_iff_holds (hI : I.Sound) (hty : f.tyFreevars = []) (hfv : f.freeVars = []) (τ : TyVal)
    (ρ : VSymbol → D) : I.Valid f ↔ I.Holds τ ρ f := by
  constructor
  · intro h
    obtain ⟨ρ', hρ'⟩ := hI.exists_typedVal τ
    have := h τ ρ' hρ'
    rwa [Holds, eval_ground hty hfv τ τ ρ' ρ] at this
  · intro h τ' ρ' _
    rwa [Holds, eval_ground hty hfv τ' τ ρ' ρ]

end Interp

end Why3

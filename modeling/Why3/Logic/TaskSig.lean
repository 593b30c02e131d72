import Why3.Logic.Extend
import Why3.Pattern.DeclMatch

/-!
# The algebraic types of a task

The constructors that the declarations of a task know are a signature, and the models of
the declarations are free for it. A declaration was checked with the symbols known when it
was added. Its matches remain exhaustive when other types are declared later, because the
constructors of a type are declared together with the type.
-/

namespace Why3

open Lib Term List

variable {d : Decl} {kn kn' : KnownMap} {ts : TySymbol} {D : Type}
variable {I : Interp D}

/-! ## Known maps -/

def KnownIn (kn kn' : KnownMap) : Prop := ∀ s d, kn.find? s = some d → kn'.find? s = some d

theorem KnownIn.refl (kn : KnownMap) : KnownIn kn kn := fun _ _ h => h

theorem KnownIn.trans {kn'' : KnownMap} (h : KnownIn kn kn') (h' : KnownIn kn' kn'') :
    KnownIn kn kn'' :=
  fun s d hs => h' s d (h s d hs)

theorem AddedBase.knownIn (h : AddedBase kn d kn') : KnownIn kn kn' := by
  intro s d' hs
  rw [h.find, if_neg, hs]
  intro hmem
  rw [h.fresh s hmem] at hs
  cases hs

theorem Known.shares (hkn : Known kn) {s s' : Sym} (hs : kn.find? s = some d)
    (hs' : s' ∈ declNews d) : kn.find? s' = some d := by
  induction hkn with
  | empty => simp at hs
  | @add kn kn' d' hkn hd h ih =>
    have hadd := knownAddDecl_added h
    rw [hadd.find] at hs
    split at hs
    · obtain rfl := Option.some.inj hs
      rw [hadd.find, if_pos hs']
    · exact hadd.knownIn _ _ (ih hs)

theorem constrsOf_decl (hne : constrsOf kn ts ≠ []) :
    ∃ tdl cl, kn.find? (.ts ts.embed) = some (.ddata tdl) ∧ (ts, cl) ∈ tdl ∧
      constrsOf kn ts = cl.map Prod.fst := by
  obtain ⟨cs, hcs⟩ := exists_mem_of_ne_nil _ hne
  obtain ⟨cl, hcl, heq, c, hc, _⟩ := mem_constrsOf hcs
  unfold findConstructors at hcl
  split at hcl
  · cases hcl
    cases hc
  · next tdl hfind => exact ⟨tdl, cl, hfind, mem_of_lookup (assq_eq_ok.mp hcl), heq⟩
  · cases hcl
  · cases hcl

theorem KnownIn.constrsOf_eq (h : KnownIn kn kn') (hts : kn.find? (.ts ts.embed) = some d) :
    constrsOf kn' ts = constrsOf kn ts := by
  simp only [constrsOf, findConstructors, hts, h _ _ hts]

theorem KnownIn.constrsOf_of_ne_nil (h : KnownIn kn kn') (hne : constrsOf kn ts ≠ []) :
    constrsOf kn' ts = constrsOf kn ts := by
  obtain ⟨tdl, cl, hfind, _⟩ := constrsOf_decl hne
  exact h.constrsOf_eq hfind

theorem mem_declNews_constr {tdl : List DataDecl} {td : DataDecl} {c : Constructor} (htd : td ∈ tdl)
    (hc : c ∈ td.2) : Sym.ls c.1 ∈ declNews (.ddata tdl) :=
  mem_flatMap.mpr ⟨td, htd, mem_append_right _ (mem_map.mpr ⟨c, hc, rfl⟩)⟩

theorem KnownIn.mem_constrsOf (h : KnownIn kn kn') (hkn : Known kn) (hkn' : Known kn')
    {cs : LSymbol} (hcs : cs ∈ constrsOf kn' ts) (hmem : kn.mem (.ls cs) = true) :
    cs ∈ constrsOf kn ts := by
  obtain ⟨tdl, cl, hfind, htd, heq⟩ := constrsOf_decl (ne_nil_of_mem hcs)
  obtain ⟨c, hc, rfl⟩ := mem_map.mp (heq ▸ hcs)
  obtain ⟨d, hd⟩ := (TagMap.mem_eq_true_iff _ _).mp hmem
  obtain rfl : d = .ddata tdl :=
    Option.some.inj ((h _ _ hd).symm.trans (hkn'.shares hfind (mem_declNews_constr htd hc)))
  rwa [← h.constrsOf_eq (hkn.shares hd (ts_mem_declNews_ddata.mpr (mem_map_of_mem htd)))]

/-! ## Smaller signatures -/

section Restrict

variable {S S' : DataSig} {P : Sym → Prop}
  (hS : ∀ ts, ∀ cs ∈ S.constrs ts, P (.ls cs) → cs ∈ S'.constrs ts)

include hS

theorem PatTyped.restrict {p : Pattern} (hp : PatTyped S p) (hsyms : ∀ s ∈ symsPattern p, P s) :
    PatTyped S' p := by
  induction hp with
  | pwild ty => exact .pwild ty
  | pvar v => exact .pvar v
  | @papp fs pl ts tl hl hfs hty hvars hpl ih =>
    rw [symsPattern, forall_mem_append, forall_mem_cons] at hsyms
    refine .papp hl (hS ts fs hfs hsyms.2.1) hty hvars fun p hp => ih p hp fun s hs => ?_
    exact hsyms.2.2 s (mem_symsPatternList.mpr ⟨p, hp, hs⟩)
  | por hp hq hty hvars ihp ihq =>
    rw [symsPattern, forall_mem_append, forall_mem_append] at hsyms
    exact .por (ihp hsyms.1.2) (ihq hsyms.2) hty hvars
  | pas hp hty hv ih =>
    rw [symsPattern, forall_mem_append] at hsyms
    exact .pas (ih hsyms.2) hty hv

theorem WellTyped.restrict {Γ : List Ty} {t : Term} {o : Option Ty} (h : WellTyped S Γ t o)
    (hsyms : ∀ s ∈ symsTerm t, P s) : WellTyped S' Γ t o := by
  induction h with
  | tvar a v => exact .tvar a v
  | tbnd a hi => exact .tbnd a hi
  | tconst a c ty => exact .tconst a c ty
  | @tapp Γ a ls tl o σ hls ho hlen htl ih =>
    simp only [symsTerm, forall_mem_append, forall_mem_cons] at hsyms
    refine .tapp a σ (hls.imp_right (.imp fun ts hts => hS ts ls hts hsyms.2.1)) ho hlen ?_
    intro i t ty hi hty
    exact ih i t ty hi hty fun s hs =>
      hsyms.2.2 s (mem_symsTermList.mpr ⟨t, mem_of_getElem? hi, hs⟩)
  | tif a hf ht he ihf iht ihe =>
    simp only [symsTerm, forall_mem_append] at hsyms
    exact .tif a (ihf hsyms.1.1) (iht hsyms.1.2) (ihe hsyms.2)
  | tlet a ht he iht ihe =>
    simp only [symsTerm, forall_mem_append] at hsyms
    exact .tlet a (iht hsyms.1) (ihe hsyms.2)
  | @tcase Γ a t ty bl o ht hsat hne hp hbl iht ihbl =>
    simp only [symsTerm, forall_mem_append] at hsyms
    have hb : ∀ b ∈ bl, (∀ s ∈ symsPattern b.1, P s) ∧ ∀ s ∈ symsTerm b.2, P s := by
      intro b hb
      exact ⟨fun s hs => hsyms.2 s (mem_symsTermBranches.mpr ⟨b, hb, .inl hs⟩),
        fun s hs => hsyms.2 s (mem_symsTermBranches.mpr ⟨b, hb, .inr hs⟩)⟩
    exact .tcase a (iht hsyms.1) hsat hne
      (fun b hmem => ⟨(hp b hmem).1.restrict hS (hb b hmem).1, (hp b hmem).2⟩)
      fun b hmem => ihbl b hmem (hb b hmem).2
  | teps a hf ih =>
    simp only [symsTerm, forall_mem_append] at hsyms
    exact .teps a (ih hsyms.2)
  | @tquant Γ a q vl trl f htr hf ihtr ih =>
    simp only [symsTerm, forall_mem_append] at hsyms
    refine .tquant a q (fun tl htl t ht => ihtr tl htl t ht fun s hs => ?_) (ih hsyms.2)
    exact hsyms.1.2 s (mem_symsTermTriggers.mpr ⟨tl, htl, t, ht, hs⟩)
  | tbinop a op hf hg ihf ihg =>
    simp only [symsTerm, forall_mem_append] at hsyms
    exact .tbinop a op (ihf hsyms.1) (ihg hsyms.2)
  | tnot a hf ih => exact .tnot a (ih hsyms)
  | ttrue a => exact .ttrue a
  | tfalse a => exact .tfalse a

end Restrict

theorem Interp.Free.restrict {S S' : DataSig} (hI : I.Free S)
    (h : ∀ ts, S'.constrs ts ≠ [] → S.constrs ts = S'.constrs ts) : I.Free S' :=
  Interp.free_iff.mpr fun ts hne => h ts hne ▸ Interp.free_iff.mp hI ts (h ts hne ▸ hne)

/-! ## Tasks -/

namespace Task

variable {task : Task}

section

variable (h : task.Built)
include h

theorem Built.knownMap : Known task.taskKnown := by
  refine Built.cases_add .empty ?_ ?_ h
  · exact fun _ ih hd hkn _ => .add ih hd hkn
  · exact fun _ ih _ _ => ih

def sig (h : task.Built) : DataSig := knownSig h.knownMap

theorem Built.mem_of_find {s : Sym} {d : Decl} :
    task.taskKnown.find? s = some d → d ∈ task.taskDecls := by
  refine Built.cases_add ?_ ?_ ?_ h
  · intro hs
    simp [Task.empty] at hs
  · intro task d' kn _ ih _ hkn _ hs
    rw [taskDecls_concat, mem_append]
    rw [(knownAddDecl_added hkn).find] at hs
    split at hs
    · obtain rfl := Option.some.inj hs
      exact .inr (mem_singleton_self _)
    · exact .inl (ih hs)
  · intro task td _ ih htd _
    rwa [taskDecls_element htd]

/-- A declaration was checked when it was added, and what was known then still is. -/
theorem Built.added : ∀ d ∈ task.taskDecls, ∃ kn kn',
    Known kn ∧ knownAddDecl kn d = .ok kn' ∧ KnownIn kn' task.taskKnown := by
  refine Built.cases_add ?_ ?_ ?_ h
  · exact fun d hd => (not_mem_nil hd).elim
  · intro task d kn htask ih _ hkn _ d' hd'
    rw [taskDecls_concat, mem_append] at hd'
    rcases hd' with hd' | hd'
    · obtain ⟨kn₀, kn₁, hkn₀, hadd, hin⟩ := ih d' hd'
      exact ⟨kn₀, kn₁, hkn₀, hadd, hin.trans (knownAddDecl_added hkn).knownIn⟩
    · obtain rfl : d' = d := mem_singleton.mp hd'
      exact ⟨_, kn, htask.knownMap, hkn, .refl kn⟩
  · intro task td _ ih htd _
    rwa [taskDecls_element htd]

theorem Built.constrs_decl (hne : (sig h).constrs ts ≠ []) :
    ∃ tdl cl, .ddata tdl ∈ task.taskDecls ∧ (ts, cl) ∈ tdl ∧
      (sig h).constrs ts = cl.map Prod.fst := by
  obtain ⟨tdl, cl, hfind, hmem, heq⟩ := constrsOf_decl hne
  exact ⟨tdl, cl, h.mem_of_find hfind, hmem, heq⟩

theorem Built.free (hI : I.Models task.taskDecls) : I.Free (sig h) := by
  refine Interp.free_iff.mpr fun ts hne => ?_
  obtain ⟨tdl, cl, hdecl, hmem, heq⟩ := h.constrs_decl hne
  rw [heq]
  exact (hI.decls _ hdecl _ hmem).1

theorem Built.sig_below {n : ℕ} (hn : ∀ d ∈ task.taskDecls, d.Below n) : (sig h).Below n := by
  intro ts cs hcs
  obtain ⟨tdl, cl, hdecl, hmem, heq⟩ := h.constrs_decl (ne_nil_of_mem hcs)
  obtain ⟨c, hc, rfl⟩ := mem_map.mp (heq ▸ hcs)
  exact hn _ hdecl _ (mem_flatMap.mpr ⟨_, hmem, mem_flatMap.mpr ⟨c, hc, mem_cons_self⟩⟩)

theorem Built.exhaustive (hd : d ∈ task.taskDecls) (htyped : DeclTyped (sig h) d) {τ : TyVal}
    (hI : I.Sound) (hfree : I.Free (sig h)) :
    ∀ s ∈ declStmts d, ∀ v, Pattern.Instance I τ s.1 v → ∃ b ∈ s.2, I.matchPat τ b.1 v ≠ none := by
  obtain ⟨kn, kn', hkn, hadd, hin⟩ := h.added d hd
  unfold knownAddDecl at hadd
  obtain ⟨kn₁, hbase, ⟨⟩, _, hadd⟩ := bind₂_eq_ok.mp hadd
  obtain ⟨⟨⟩, _, ⟨⟩, hmatch, hadd⟩ := bind₂_eq_ok.mp hadd
  obtain rfl : kn₁ = kn' := Except.ok.inj hadd
  have hold := knownAddDeclBase_added hbase
  have hin' : KnownIn kn task.taskKnown := hold.knownIn.trans hin
  have hfree' : I.Free (knownSig hkn) :=
    hfree.restrict fun ts hne => hin'.constrsOf_of_ne_nil hne
  -- the constructors of the terms are known before the declaration
  have htyped' : DeclTyped (knownSig hkn) d := by
    intro t ht
    obtain ⟨Γ, o, hto⟩ := htyped t ht
    obtain ⟨syms, hsyms, hknown⟩ := hold.uses
    refine ⟨Γ, o, hto.restrict (P := fun s => kn.mem s = true ∨ s ∈ declNews d) ?_ ?_⟩
    · rintro ts cs hcs (hmem | hnews)
      · exact hin'.mem_constrsOf hkn h.knownMap hcs hmem
      -- the symbols of an algebraic type are declared without terms
      · obtain ⟨tdl, cl, hfind, hmem, heq⟩ := constrsOf_decl (ne_nil_of_mem hcs)
        obtain ⟨c, hc, rfl⟩ := mem_map.mp (heq.subst (motive := (cs ∈ ·)) hcs)
        have hd' := hin _ d (by rw [hold.find, if_pos hnews])
        rw [h.knownMap.shares hfind (mem_declNews_constr hmem hc)] at hd'
        obtain rfl := Option.some.inj hd'
        cases ht
    · intro s hs
      obtain ⟨d', hd'⟩ := (TagMap.mem_eq_true_iff _ _).mp (hknown s (declTerms_syms hsyms t ht s hs))
      rw [hold.find] at hd'
      split at hd'
      · next hnews => exact .inr hnews
      · exact .inl ((TagMap.mem_eq_true_iff _ _).mpr ⟨d', hd'⟩)
  intro s hs v hv
  by_contra hno
  obtain ⟨pl, hpl⟩ := (checkMatch_right hkn hI hfree' hbase htyped').raised_iff.mpr
    ⟨s, hs, v, hv, fun b hb => by_contra fun hb' => hno ⟨b, hb, hb'⟩⟩
  rw [hmatch] at hpl
  cases hpl

end

/-- The symbols of a task are declared once, before they are used, and nothing follows the
goal. -/
theorem declared_before_use {task : Task} (h : task.Built) :
    task.taskDecls.Pairwise Decl.Before ∧
      (∀ d ∈ task.taskDecls, ∀ syms, getDeclSyms d = .ok syms → ∀ s ∈ syms,
        ∃ d' ∈ task.taskDecls, s ∈ declNews d') ∧
      ∀ pr f, .dprop .pgoal pr f ∈ task.taskDecls →
        ∃ hyps, task.taskDecls = hyps ++ [.dprop .pgoal pr f] := by
  refine ⟨h.pairwise, fun d hd syms hsyms s hs => ?_, fun pr f hmem =>
    taskDecls_of_findGoal (h.findGoal_eq hmem)⟩
  obtain ⟨d', hd'⟩ := (TagMap.mem_eq_true_iff _ _).mp ((h.known d hd).2 syms hsyms s hs)
  exact ⟨d', h.mem_of_find hd', h.knownMap.introduced s d' hd'⟩

def psAtom : LSymbol := ⟨⟨50⟩, [], none, 0⟩

/-- `predicate p`, `axiom A : p` and `goal G : p`. -/
def atomDecls : List Decl := [.dparam psAtom, .dprop PropKind.paxiom ⟨⟨51⟩⟩ (tapp [] psAtom [] none),
  .dprop .pgoal ⟨⟨52⟩⟩ (tapp [] psAtom [] none)]

theorem declared_before_use_atom : (taskOf atomDecls).taskDecls = atomDecls ∧
    atomDecls.Pairwise Decl.Before ∧ (∀ d ∈ atomDecls, ∀ syms, getDeclSyms d = .ok syms →
      ∀ s ∈ syms, ∃ d' ∈ atomDecls, s ∈ declNews d') ∧
    getDeclSyms (.dprop PropKind.paxiom ⟨⟨51⟩⟩ (tapp [] psAtom [] none)) = .ok [.ls psAtom] ∧
    ∃ hyps, atomDecls = hyps ++ [.dprop .pgoal ⟨⟨52⟩⟩ (tapp [] psAtom [] none)] := by
  have hdecls : (taskOf atomDecls).taskDecls = atomDecls := rfl
  have hbuilt : (taskOf atomDecls).Built := built_taskOf (by simp [atomDecls, Decl.WellFormed])
  obtain ⟨hbefore, huse, hgoal⟩ := declared_before_use hbuilt
  rw [hdecls] at hbefore huse hgoal
  exact ⟨hdecls, hbefore, huse, rfl, hgoal _ _ (by simp [atomDecls])⟩

end Task

end Why3

import Why3.Transform.InductionPr
import Why3.Logic.Fixpoint

/-!
# The context of a located application

What the search for an inductive premise finds, and what the parts of its context mean:
a formula is true as soon as what follows the application is true for all values that
satisfy the context, and a formula that is put into a context can be used for such values.
-/

namespace Why3

open Lib Term Interp List

variable {cdep cindep ctx : Context} {kn : KnownMap} {ul : List VSymbol} {ind : Located}
variable {vsi : TagMap VSymbol Unit} {goal t : Term} {n : ℕ}

inductive Locates (kn : KnownMap) : ℕ → List VSymbol → Term → Context → Located → Term → Prop where
  | tlet {n : ℕ} {ul : List VSymbol} {a : List Attr} {t1 t2 : Term} {v : VSymbol} {ctx : Context}
      {ind : Located} {goal : Term} (h : Locates kn (n + 1) (⟨⟨n⟩, v.vsTy⟩ :: ul) t2 ctx ind goal) :
      Locates kn n ul (tlet a t1 v t2) (⟨.clet ⟨⟨n⟩, v.vsTy⟩ (openVars ul t1), a⟩ :: ctx) ind goal
  | tforall {n : ℕ} {ul vl : List VSymbol} {a : List Attr} {trl : List (List Term)} {t1 : Term}
      {ctx : Context} {ind : Located} {goal : Term}
      (h : Locates kn (n + vl.length) (freshOf n (vl.map VSymbol.vsTy) ++ ul) t1 ctx ind goal) :
      Locates kn n ul (tquant a .tforall vl trl t1)
        (⟨.cforall (freshOf n (vl.map VSymbol.vsTy)), a⟩ :: ctx) ind goal
  | timplies {n : ℕ} {ul : List VSymbol} {a : List Attr} {lhs rhs : Term} {ctx : Context}
      {ind : Located} {goal : Term} (h : Locates kn n ul rhs ctx ind goal) :
      Locates kn n ul (tbinop a .timplies lhs rhs)
        (⟨.cimplies (openVars ul lhs), a⟩ :: ctx) ind goal
  | here {n : ℕ} {ul : List VSymbol} {a a' : List Attr} {ls : LSymbol} {argl : List Term}
      {o : Option Ty} {rhs : Term} {dl : List IndDecl} {cl : List (PrSymbol × Term)}
      (hkn : kn.find? (.ls ls) = some (.dind .ind dl)) (hcl : assq ls dl = .ok cl) :
      Locates kn n ul (tbinop a .timplies (tapp a' ls argl o) rhs) []
        (ls, argl.map (openVars ul), cl) (openVars ul rhs)

theorem addLevel_eq_some {c : ContextLevel} {r : Option (Context × Located × Term)}
    (h : addLevel c r = some (ctx, ind, goal)) :
    ∃ ctx', r = some (ctx', ind, goal) ∧ ctx = c :: ctx' := by
  obtain ⟨⟨ctx', ind', goal'⟩, hr, heq⟩ := Option.map_eq_some_iff.mp h
  cases heq
  exact ⟨ctx', hr, rfl⟩

theorem locateInductive_spec {attr : Attr} : ∀ (t : Term) {n : ℕ}
    {ul : List VSymbol} {findAny : Bool} {ctx : Context} {ind : Located} {goal : Term},
    locateInductive kn attr n ul findAny t = .ok (some (ctx, ind, goal)) →
      Locates kn n ul t ctx ind goal
  | tlet a t1 v t2, n, ul, findAny, ctx, ind, goal, h => by
    obtain ⟨r, hr, h⟩ := bind_eq_ok.mp h
    obtain ⟨ctx', rfl, rfl⟩ := addLevel_eq_some (Except.ok.inj h)
    exact .tlet (locateInductive_spec t2 hr)
  | tquant a .tforall vl trl t1, n, ul, findAny, ctx, ind, goal, h => by
    obtain ⟨r, hr, h⟩ := bind_eq_ok.mp h
    obtain ⟨ctx', rfl, rfl⟩ := addLevel_eq_some (Except.ok.inj h)
    exact .tforall (locateInductive_spec t1 hr)
  | tbinop a .timplies lhs rhs, n, ul, findAny, ctx, ind, goal, h => by
    have hrhs : ∀ {any : Bool} {r : Option (Context × Located × Term)}, (do
          let r ← locateInductive kn attr n ul any rhs
          .ok (addLevel ⟨.cimplies (openVars ul lhs), a⟩ r)) = .ok r →
        r = some (ctx, ind, goal) → Locates kn n ul (tbinop a .timplies lhs rhs) ctx ind goal := by
      rintro any r h rfl
      obtain ⟨r, hr, h⟩ := bind_eq_ok.mp h
      obtain ⟨ctx', rfl, rfl⟩ := addLevel_eq_some (Except.ok.inj h)
      exact .timplies (locateInductive_spec rhs hr)
    cases lhs with
    | tapp a' ls argl o =>
      rw [locateInductive] at h
      dsimp only at h
      split at h
      · split at h
        · next dl hkn =>
            obtain ⟨cl, hcl, h⟩ := bind_eq_ok.mp h
            have hfound : some (([] : Context), ((ls, argl.map (openVars ul), cl) : Located),
                openVars ul rhs) = some (ctx, ind, goal) →
                Locates kn n ul (tbinop a .timplies (tapp a' ls argl o) rhs) ctx ind goal := by
              intro heq
              cases heq
              exact .here hkn hcl
            split at h
            · obtain ⟨r, hr, h⟩ := bind_eq_ok.mp h
              cases r with
              | some r => exact hrhs hr (Except.ok.inj h)
              | none => exact hfound (Except.ok.inj h)
            · exact hfound (Except.ok.inj h)
        · cases h
        · cases h
        · exact hrhs h rfl
        · cases h
      · exact hrhs h rfl
    | _ =>
      simp only [locateInductive] at h
      split at h
      · exact hrhs h rfl
      · exact hrhs h rfl
  | tvar _ _, _, _, _, _, _, _, h => by cases h
  | tbnd _ _ _, _, _, _, _, _, _, h => by cases h
  | tconst _ _ _, _, _, _, _, _, _, h => by cases h
  | tapp _ _ _ _, _, _, _, _, _, _, h => by cases h
  | tif _ _ _ _, _, _, _, _, _, _, h => by cases h
  | tcase _ _ _, _, _, _, _, _, _, h => by cases h
  | teps _ _ _, _, _, _, _, _, _, h => by cases h
  | tquant _ .texists _ _ _, _, _, _, _, _, _, h => by cases h
  | tbinop _ .tand _ _, _, _, _, _, _, _, h => by cases h
  | tbinop _ .tor _ _, _, _, _, _, _, _, h => by cases h
  | tbinop _ .tiff _ _, _, _, _, _, _, _, h => by cases h
  | tnot _ _, _, _, _, _, _, _, h => by cases h
  | ttrue _, _, _, _, _, _, _, h => by cases h
  | tfalse _, _, _, _, _, _, _, h => by cases h

/-! ## Contexts -/

section Contexts

variable {D : Type} {I : Interp D} {τ τ' : TyVal} {ρ ρ' : VSymbol → D} {S : DataSig}
  {W : List TvSymbol}

def ContextNode.Sat (I : Interp D) (τ : TyVal) (ρ : VSymbol → D) : ContextNode → Prop
  | .clet vs t => ρ vs = I.val τ ρ t
  | .cforall _ => True
  | .cimplies t => I.Holds τ ρ t

/-- A formula in a context gives the formula for all values that satisfy the context. -/
theorem holds_of_zip (hρ : I.TypedVal τ ρ) (hctx : ∀ c ∈ ctx, c.cNode.Sat I τ ρ) :
    ∀ {goal f : Term}, zip ctx goal = .ok f → I.Holds τ ρ f → I.Holds τ ρ goal := by
  induction ctx with
  | nil =>
    intro goal f h hf
    cases h
    exact hf
  | cons c ctx ih =>
    intro goal f h hf
    rw [forall_mem_cons] at hctx
    obtain ⟨node, a⟩ := c
    cases node with
    | clet vs t =>
      obtain ⟨_, _, h⟩ := bind_eq_ok.mp h
      have hlet := ih hctx.2 h hf
      have hself : assign ρ [(vs, I.val τ ρ t)] = ρ := by
        have := assign_zip_self ρ [vs]
        rwa [map_singleton, hctx.1] at this
      rw [Holds, eval_withAttrs, eval_tLetClose] at hlet
      rw [Holds, ← hself]
      exact hlet
    | cforall vsl =>
      obtain ⟨g, hg, h⟩ := bind_eq_ok.mp h
      have hall := ih hctx.2 h hf
      rw [Holds, eval_withAttrs] at hall
      exact holds_of_tForallClose hg hρ hall
    | cimplies t =>
      obtain ⟨g, hg, h⟩ := bind_eq_ok.mp h
      have himp := ih hctx.2 h hf
      rw [Holds, eval_withAttrs] at himp
      exact (holds_timplies hg).mp himp hctx.1

/-- What holds of the levels of a context holds of those of its parts. -/
theorem forall_partition {P : ContextNode → Prop}
    (hforall : ∀ vl vl', vl' ⊆ vl → P (.cforall vl) → P (.cforall vl'))
    (hlet : ∀ vs t e, tEqu (tvar [] vs) t = .ok e → P (.clet vs t) → P (.cimplies e))
    {vsiAcc : TagMap VSymbol Unit} {cindep' cdep' : Context}
    (h : partitionAux vsi ctx vsiAcc cindep cdep = .ok (cindep', cdep'))
    (hctx : ∀ c ∈ ctx, P c.cNode) (hindep : ∀ c ∈ cindep, P c.cNode) (hdep : ∀ c ∈ cdep, P c.cNode) :
    (∀ c ∈ cindep', P c.cNode) ∧ ∀ c ∈ cdep', P c.cNode := by
  have hadd : ∀ {a : List Attr} {c : Context} {vl vl' : List VSymbol}, vl' ⊆ vl →
      P (.cforall vl) → (∀ c' ∈ c, P c'.cNode) → ∀ c' ∈ addForall a c vl', P c'.cNode := by
    intro a c vl vl' hsub hvl hc
    cases vl' with
    | nil => exact hc
    | cons v vl' => exact forall_mem_cons.mpr ⟨hforall _ _ hsub hvl, hc⟩
  induction ctx generalizing vsiAcc cindep cdep with
  | nil =>
    cases h
    exact ⟨hindep, hdep⟩
  | cons c ctx ih =>
    rw [forall_mem_cons] at hctx
    obtain ⟨node, a⟩ := c
    cases node with
    | clet vs t =>
      rw [partitionAux] at h
      split at h
      · obtain ⟨e, he, h⟩ := bind_eq_ok.mp h
        exact ih h hctx.2 hindep (forall_mem_cons.mpr ⟨hlet vs t e he hctx.1, hdep⟩)
      · split at h
        · exact ih h hctx.2 hindep (forall_mem_cons.mpr ⟨hctx.1, hdep⟩)
        · exact ih h hctx.2 (forall_mem_cons.mpr ⟨hctx.1, hindep⟩) hdep
    | cforall vsl =>
      rw [partitionAux] at h
      dsimp only at h
      rw [partition_eq_filter_filter] at h
      refine ih h hctx.2 (hadd ?_ hctx.1 hindep) (hadd ?_ hctx.1 hdep)
      · exact fun v hv => mem_of_mem_filter (mem_of_mem_filter hv)
      · exact fun v hv => mem_of_mem_filter (mem_of_mem_filter hv)
    | cimplies t =>
      rw [partitionAux] at h
      split at h
      · exact ih h hctx.2 hindep (forall_mem_cons.mpr ⟨hctx.1, hdep⟩)
      · exact ih h hctx.2 (forall_mem_cons.mpr ⟨hctx.1, hindep⟩) hdep

theorem partition_sat (hI : I.Sound) (h : partition ctx vsi = .ok (cindep, cdep))
    (hctx : ∀ c ∈ ctx, c.cNode.Sat I τ ρ) :
    (∀ c ∈ cindep, c.cNode.Sat I τ ρ) ∧ ∀ c ∈ cdep, c.cNode.Sat I τ ρ := by
  refine forall_partition (fun _ _ _ _ => trivial) ?_ h hctx (by simp) (by simp)
  intro vs t e he heq
  exact (eval_tEqu hI he).mpr heq

/-! ## The located application -/

theorem map_eq_of_tags (hul : ∀ v ∈ ul, v.vsName.idTag < n)
    (h : ∀ v : VSymbol, v.vsName.idTag < n → ρ' v = ρ v) : ul.map ρ' = ul.map ρ :=
  map_congr_left fun v hv => h v (hul v hv)

theorem eval_closed (ρ ρ' : VSymbol → D) (ht : t.freeVars = []) (b : List D) :
    I.eval τ ρ b t = I.eval τ ρ' b t :=
  eval_congr t b (by simp [ht])

/-- A formula is true if what follows the located application is, for all values that
satisfy the context. -/
theorem Locates.holds (hI : I.Sound) (h : Locates kn n ul t ctx ind goal) {ρ : VSymbol → D}
    (hty : WellTyped S (ul.map VSymbol.vsTy) t none) (hfv : t.freeVars = [])
    (hul : ∀ v ∈ ul, v.vsName.idTag < n) (hρ : I.TypedVal τ ρ)
    (hgoal : ∀ ρ', I.TypedVal τ ρ' → (∀ v : VSymbol, v.vsName.idTag < n → ρ' v = ρ v) →
      (∀ c ∈ ctx, c.cNode.Sat I τ ρ') → I.pr ind.1 (ind.2.1.map (I.val τ ρ')) →
      I.Holds τ ρ' goal) : (I.eval τ ρ (ul.map ρ) t).2 := by
  induction h generalizing ρ with
  | @tlet n ul a t1 t2 v ctx ind goal h ih =>
    rw [freeVars, append_eq_nil_iff] at hfv
    cases hty with
    | tlet _ ht1 ht2 =>
      let vs : VSymbol := ⟨⟨n⟩, v.vsTy⟩
      let d := (I.eval τ ρ (ul.map ρ) t1).1
      have hold : ∀ w : VSymbol, w.vsName.idTag < n → assign ρ [(vs, d)] w = ρ w := by
        intro w hw
        rw [assign_cons, if_neg (by rintro rfl; exact lt_irrefl _ hw), assign_nil]
      have hmem := (ht1.eval_mem hI hρ (hρ.typed_map ul) _ rfl).1
      have hnew : assign ρ [(vs, d)] vs = d := by rw [assign_cons, if_pos rfl]
      have hbody := ih ht2 hfv.2 (ρ := assign ρ [(vs, d)]) ?_ ?_ ?_
      · rw [map_cons, hnew, map_eq_of_tags hul hold, eval_closed _ ρ hfv.2]
          at hbody
        rw [eval_tlet]
        exact hbody
      · refine forall_mem_cons.mpr ⟨n.lt_succ_self, fun w hw => ?_⟩
        exact (hul w hw).trans n.lt_succ_self
      · exact hρ.assign (by simpa using hmem)
      · intro ρ' hρ' hkeep hsat
        have hkeep' : ∀ w : VSymbol, w.vsName.idTag < n → ρ' w = ρ w := fun w hw =>
          (hkeep w (hw.trans n.lt_succ_self)).trans (hold w hw)
        refine hgoal ρ' hρ' hkeep' (forall_mem_cons.mpr ⟨?_, hsat⟩)
        change ρ' vs = I.val τ ρ' (openVars ul t1)
        rw [hkeep vs n.lt_succ_self, hnew, val, eval_openVars, append_nil,
          map_eq_of_tags hul hkeep', eval_closed _ ρ hfv.1]
  | @tforall n ul vl a trl t1 ctx ind goal h ih =>
    rw [freeVars, append_eq_nil_iff] at hfv
    cases hty with
    | tquant _ _ _ ht1 =>
      rw [eval_forall]
      intro ds hds
      let vsl := freshOf n (vl.map VSymbol.vsTy)
      have htys : vsl.map VSymbol.vsTy = vl.map VSymbol.vsTy := map_vsTy_freshOf n _
      have hlen : vsl.length = ds.length := by
        rw [← hds.length_eq, ← htys, length_map]
      have hold : ∀ w : VSymbol, w.vsName.idTag < n → assign ρ (vsl.zip ds) w = ρ w := by
        intro w hw
        refine assign_of_not_mem fun hmem => ?_
        rw [map_fst_zip hlen.le] at hmem
        have := (mem_freshOf hmem).1
        omega
      have hnew : vsl.map (assign ρ (vsl.zip ds)) = ds :=
        map_assign_zip (nodup_freshOf n _) hlen ρ
      have hbody := ih (ρ := assign ρ (vsl.zip ds)) ?_ hfv.2 ?_ ?_ ?_
      · rw [map_append, hnew, map_eq_of_tags hul hold, eval_closed _ ρ hfv.2]
          at hbody
        exact hbody
      · rw [map_append, htys]
        exact ht1
      · intro w hw
        rcases mem_append.mp hw with hw | hw
        · simpa using (mem_freshOf hw).2
        · have := hul w hw
          omega
      · exact hρ.assign_zip (by rwa [htys])
      · intro ρ' hρ' hkeep hsat
        refine hgoal ρ' hρ' (fun w hw => (hkeep w (by omega)).trans (hold w hw)) ?_
        exact forall_mem_cons.mpr ⟨trivial, hsat⟩
  | @timplies n ul a lhs rhs ctx ind goal h ih =>
    rw [freeVars, append_eq_nil_iff] at hfv
    cases hty with
    | tbinop _ _ hl hr =>
      rw [eval_timplies]
      intro hlhs
      refine ih hr hfv.2 hul hρ fun ρ' hρ' hkeep hsat => ?_
      refine hgoal ρ' hρ' hkeep (forall_mem_cons.mpr ⟨?_, hsat⟩)
      change I.Holds τ ρ' (openVars ul lhs)
      rw [Holds, eval_openVars, append_nil, map_eq_of_tags hul hkeep, eval_closed _ ρ hfv.1]
      exact hlhs
  | @here n ul a a' ls argl o rhs dl cl hkn hcl =>
    have hrhs := hgoal ρ hρ (fun _ _ => rfl) (by simp)
    rw [Holds, eval_openVars, append_nil] at hrhs
    cases hty with
    | tbinop _ _ hl hr =>
      obtain rfl : o = none := hl.tTy_eq
      rw [eval_timplies, eval_tapp_none]
      intro hprem
      refine hrhs ?_
      simpa [val, eval_openVars, Function.comp_def] using hprem

end Contexts

end Why3

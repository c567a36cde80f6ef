import ShapeCheck.Proofs.Pass.Register
import ShapeCheck.Proofs.Tree.Sites

/-! Every pass over a program comes to an end. When all declarations have been gone through every
name has its type, so one round of the duties is all there is. What has been reported by then is
what the recipes of the program leave behind, what the duties bring and what the pass finds
itself. -/

namespace ShapeCheck

namespace Decl

/-- The type of a function that is bound before all other values. -/
def hoisted : Decl → Option TypeExpr
  | .func _ signatures receiver _ => some (.func signatures receiver)
  | _ => none

/-- The declared type of a value. -/
def annotation : Decl → Option TypeExpr
  | .value _ _ declared _ _ => declared
  | _ => none

end Decl

/-- What the recipe of a type leaves behind. -/
def TypeExpr.leaves (N : Naming) (eager : Bool) (e : TypeExpr) : List Deed :=
  ((Build.type eager none e).under N).left

/-- Once the names are bound the recipes of the types come to a result. -/
def Env.Builds (φ : Features) (env : Env) (eager : Bool) (es : List TypeExpr) : Prop :=
  ∀ e ∈ es, ∀ N : Naming, N.Completes φ env →
    ∃ t, ((Build.type eager none e).under N).result = .ok t

theorem Env.Builds.grow {φ : Features} {env env' : Env} {eager : Bool} {es : List TypeExpr}
    (hg : env.Grows env') (h : env.Builds φ eager es) : env'.Builds φ eager es :=
  fun e he N hN => h e he N (hN.of_grows hg)

/-- What all recipes of a program leave behind. -/
def Program.leaves (N : Naming) (p : Program) : List Deed :=
  p.firsts.flatMap (fun d => (d.recipe.under N).left) ++
    (p.declarations.filterMap Decl.hoisted).flatMap (·.leaves N false) ++
      (p.declarations.filterMap Decl.annotation).flatMap (·.leaves N true)

theorem Program.mem_leaves {N : Naming} {p : Program} {d : Decl} {deed : Deed}
    (hd : d ∈ p.firsts) (h : deed ∈ (d.recipe.under N).left) : deed ∈ p.leaves N :=
  List.mem_append_left _ (List.mem_append_left _ (List.mem_flatMap.mpr ⟨d, hd, h⟩))

/-- What an interface declares itself fits what it inherits. -/
def Obligation.Refines (R : Reading) : Obligation → Prop
  | .index _ _ _ _ => True
  | .refinement _ declared fs gs => ∀ b ∈ declared, ∀ base own, Field.find? gs b.1 = some base →
    Field.find? fs b.1 = some own → R.Assignable own.type base.type

namespace Pass
variable {φ : Features} {plan : Plan φ} {p p' p'' : Pass} {t : Ty} {α : Type} {config : Config}
  {own own' : Naming → List Deed}

theorem gives_naming {act : EnvM α} {Post : α → Env → Prop} (hp : p.Sound plan config)
    (h : (Env.frame plan).Gives (fun _ => act) p.env Post) :
    (openFrame plan config).Gives (fun _ => naming act) p fun a p' => Post a p'.env := by
  refine (settles_naming h).imp ?_
  rintro a p' ⟨⟨hk, hstep, hpost⟩, hp'⟩
  have hsound := sound_of_grows hp ⟨hk, hstep.1.trans hp.idle.resting⟩ hstep.2
  rw [← hp'] at hsound
  refine ⟨hsound, ⟨hstep.2, ?_⟩, hpost⟩
  rw [hp']
  exact List.Subset.refl _

theorem mem_put {bs : List (String × Ty)} {name : String} {b : String × Ty}
    (h : b ∈ Scope.put name t bs) : b = (name, t) ∨ b ∈ bs := by
  induction bs with
  | nil => exact .inl (List.mem_singleton.mp h)
  | cons a bs ih =>
    unfold Scope.put at h
    split at h
    · exact (List.mem_cons.mp h).imp_right (List.mem_cons_of_mem a)
    · rcases List.mem_cons.mp h with rfl | h
      · exact .inr List.mem_cons_self
      · exact (ih h).imp_right (List.mem_cons_of_mem a)

theorem misfitReport_kind (m : Mismatch) (s t : Ty) (span : Option Span) :
    (misfitReport m s t span).kind.ofLookup = false := by
  unfold misfitReport
  cases m.flaw <;> rfl

/-- A known name has its type once it has been resolved. -/
theorem binds_of_found {name : String} (hp : p.Sound plan config) (hk : plan.known name)
    {env : Env} (h : Env.Found plan env (.ref name) t p.env) : p.env.Binds name t := by
  have hdef : p.env.isDefined name := (hp.idle.kept.known name).trans hk
  obtain ⟨c, hf⟩ := Option.isSome_iff_exists.mp hdef
  obtain ⟨hc, rfl⟩ := Env.find?_eq_some hf
  have hcell := hp.idle.kept.cell c hc
  have hbegun := h.begun c hc (by simp [Naming.sought])
  cases hprog : c.progress with
  | waiting recipe => simp [hprog, Progress.isWaiting] at hbegun
  | underWay =>
    have hrun := hcell.running hprog
    simp [hp.idle.resting] at hrun
  | settled u =>
    have hlook := h.look _ hp.idle.kept.completes
    have hbound := Env.bound_of_mem hp.idle.kept.apart hc hprog
    exact ⟨c, hc, rfl, hprog.trans (congrArg _ (hbound.symm.trans hlook))⟩

/-- When every name has been noted, all of them have their types. -/
theorem settled_of_noted (hp : p.Sound plan config)
    (h : ∀ n, plan.known n → ∃ t, (n, t) ∈ p.aliases) : p.env.Settled := by
  intro c hc
  obtain ⟨t, ht⟩ := h c.name (hp.idle.kept.known_of_mem hc)
  obtain ⟨b, hb, hn, hprog⟩ := hp.aliases _ ht
  rw [← Env.eq_of_name_eq hp.idle.kept.apart hb hc hn, hprog]
  rfl

/-- An initializer that does not fit the declared type of its value: the mismatch that the check
comes to, the type of the initializer and the declared one, and the place of the report. -/
structure Misfit where
  mismatch : Mismatch
  source : Ty
  target : Ty
  span : Option Span

namespace Misfit

def report (m : Misfit) : Diagnostic := misfitReport m.mismatch m.source m.target m.span

/-- It is a misfit with more names bound as well. -/
structure Stands (φ : Features) (variance : Variance) (env : Env) (m : Misfit) : Prop where
  source : Ty.Within φ m.source
  target : Ty.Within φ m.target
  misfit : ¬φ.inter → ∀ N : Naming, N.Completes φ env →
    ¬(N.reading variance).Assignable m.source m.target

theorem Stands.grow {variance : Variance} {env env' : Env} {m : Misfit} (hg : env.Grows env')
    (h : m.Stands φ variance env) : m.Stands φ variance env' :=
  ⟨h.source, h.target, fun hni N hN => h.misfit hni N (hN.of_grows hg)⟩

end Misfit

/-- A check when all names have their types: no duty has come up. -/
structure Handles (φ : Features) (own : Naming → List Deed) (p p' : Pass) : Prop where
  adds : Adds φ own p.env p'.env
  still : p.env.Still p'.env

theorem Handles.refl (p : Pass) : Handles φ (fun _ => []) p p :=
  ⟨adds_of_evolves (.refl p.env), .refl p.env⟩

theorem Handles.trans (h : Handles φ own p p') (h' : Handles φ own' p' p'') :
    Handles φ (fun N => own N ++ own' N) p p'' :=
  ⟨h.adds.trans h'.adds, h.still.trans h'.still⟩

theorem Handles.imp (h : Handles φ own p p')
    (he : ¬φ.inter → ∀ N : Naming, N.Completes φ p'.env → own N = own' N) :
    Handles φ own' p p' :=
  ⟨h.adds.imp he, h.still⟩

theorem Handles.settled (h : Handles φ own p p') (hs : p.env.Settled) : p'.env.Settled := by
  unfold Env.Settled
  rw [h.still.cells]
  exact hs

/-- A problem that is accounted for on its own. -/
theorem gives_accounted {d : Diagnostic} (hp : p.Sound plan config)
    (hl : d.kind.ofLookup = false) :
    (openFrame plan config).Gives (fun _ => report d) p fun _ p' =>
      Handles φ (fun _ => [.say d]) p p' := by
  have hcircular : d.kind ≠ .circularAlias := fun hk => by
    simp [hk, Diagnostic.Kind.ofLookup] at hl
  have hg := Env.grows_report d p.env
  refine (settles_report φ.Err d p).imp ?_
  rintro _ _ rfl
  exact ⟨hp.withReport hcircular, ⟨hg, List.Subset.refl _⟩,
    adds_of_perm hg fun N _ => Env.tally_report N _ hl, Env.still_report _ _⟩

section Rounds
variable {handle : Nat → Obligation → PassM Unit} {own : Obligation → Naming → List Deed}
  {Q : Obligation → Pass → Prop}

theorem gives_forM {duties : List Obligation}
    (hh : ∀ duty (p : Pass), duty.Within φ → p.Sound plan config → p.env.Settled →
      (openFrame plan config).Gives (fun d => handle d duty) p fun _ p' =>
        Handles φ (own duty) p p' ∧ Q duty p')
    (hQ : ∀ duty, (openFrame plan config).Stable (Q duty))
    (hd : ∀ duty ∈ duties, duty.Within φ) (hp : p.Sound plan config) (hs : p.env.Settled) :
    (openFrame plan config).Gives (fun d => duties.forM (handle d)) p fun _ p' =>
      Handles φ (fun N => duties.flatMap (own · N)) p p' ∧ ∀ duty ∈ duties, Q duty p' := by
  induction duties generalizing p with
  | nil => exact Frame.gives_pure hp ⟨.refl p, by simp⟩
  | cons duty duties ih =>
    obtain ⟨hduty, hd⟩ := List.forall_mem_cons.mp hd
    refine (hh duty p hduty hp hs).bind fun _ p₁ hp₁ _ h₁ => ?_
    refine (ih hd hp₁ (h₁.1.settled hs)).imp fun _ p₂ _ hstep h₂ => ⟨?_, ?_⟩
    · exact (h₁.1.trans h₂.1).imp fun _ N _ => by simp
    · exact List.forall_mem_cons.mpr ⟨hQ duty _ _ hstep h₁.2, h₂.2⟩

theorem gives_dischargeFrom_nil (rounds done : Nat) (hp : p.Sound plan config)
    (hr : p.env.duties.drop done = []) :
    (openFrame plan config).Gives (fun d => dischargeFrom (handle d) rounds done) p fun _ p' =>
      Handles φ (fun _ => []) p p' := by
  cases rounds with
  | zero =>
    refine Frame.Gives.get_bind ?_
    rw [hr]
    exact Frame.gives_pure hp (.refl p)
  | succ rounds =>
    refine Frame.Gives.get_bind ?_
    rw [hr]
    exact Frame.gives_pure hp (.refl p)

/-- When all names have their types no duty comes up on the way, so there is one round. -/
theorem gives_dischargeAll
    (hh : ∀ duty (p : Pass), duty.Within φ → p.Sound plan config → p.env.Settled →
      (openFrame plan config).Gives (fun d => handle d duty) p fun _ p' =>
        Handles φ (own duty) p p' ∧ Q duty p')
    (hQ : ∀ duty, (openFrame plan config).Stable (Q duty)) (hp : p.Sound plan config)
    (hs : p.env.Settled) :
    (openFrame plan config).Gives (fun d => dischargeAll (handle d)) p fun _ p' =>
      Handles φ (fun N => p.env.duties.flatMap (own · N)) p p' ∧
        ∀ duty ∈ p.env.duties, Q duty p' := by
  refine Frame.Gives.get_bind (Frame.Gives.get_bind ?_)
  have hd := hp.idle.kept.duty
  rw [List.drop_zero]
  cases hduties : p.env.duties with
  | nil => exact Frame.gives_pure hp ⟨.refl p, by simp⟩
  | cons duty duties =>
    rw [hduties] at hd
    refine (gives_forM hh hQ hd hp hs).bind fun _ p₁ hp₁ _ h₁ => ?_
    have hnone : p₁.env.duties.drop (0 + (duty :: duties).length) = [] := by
      rw [h₁.1.still.duties, hduties, Nat.zero_add, List.drop_length]
    refine (gives_dischargeFrom_nil _ _ hp₁ hnone).imp fun _ p₂ _ hstep h₂ => ⟨?_, ?_⟩
    · exact (h₁.1.trans h₂).imp fun _ N _ => by simp
    · exact fun b hb => hQ b _ _ hstep (h₁.2 b hb)

end Rounds

/-- Nothing was found wrong with the duty, and rightly so. -/
def Met (φ : Features) (config : Config) (duty : Obligation) (p : Pass) : Prop :=
  ¬φ.inter → p.env.diagnostics = [] → ∀ N : Naming, N.Completes φ p.env →
    duty.Refines (N.reading config.variance)

theorem met_stable (duty : Obligation) :
    (openFrame plan config).Stable (Met φ config duty) := by
  intro p p' hstep h hni hd N hN
  refine h hni (List.subset_nil.mp ?_) N (hN.of_grows hstep.1)
  exact hd ▸ hstep.1.diagnostics.subset

section Finding
variable [Lookup]

/-- The type of the initializer, as it is inferred in this state, is checked against another and
comes to a mismatch. -/
inductive Rejects (config : Config) (p : Pass) (init : Expr) (target : Ty) (span : Option Span) :
    Misfit → Prop
  | mk {typed : Typed} {m : Mismatch} {p₁ p₂ : Pass}
      (inferred : ComesTo (fun d => infer ⟨config, d⟩ init) p typed p₁)
      (checked : ComesTo (fun d => checking (Setting.ask ⟨config, d⟩ typed.type target)) p₁
        (some m) p₂) :
      Rejects config p init target span ⟨m, typed.type, target, init.span <|> span⟩

/-- What is found wrong with the initializer of a value that is declared in this state. -/
inductive Finds (config : Config) (p : Pass) : Decl → Misfit → Prop
  | value {name : String} {binding : Binding} {declared : TypeExpr} {init : Expr}
      {span : Option Span} {target : Ty} {p₁ : Pass} {m : Misfit}
      (read : ComesTo (fun _ => declaredType (some declared)) p (some target) p₁)
      (rejects : Rejects config p₁ init target span m) :
      Finds config p (.value name binding (some declared) (some init) span) m

/-- What is found wrong with initializers along the declarations, each of which is come to in the
state that the one before has left. -/
inductive Misfits (config : Config) : List Decl → Pass → List Misfit → Prop
  | nil {p : Pass} : Misfits config [] p []
  | cons {d : Decl} {ds : List Decl} {p p' : Pass} {found : Option Misfit} {ms : List Misfit}
      (finds : ∀ m ∈ found, Finds config p d m)
      (declares : ComesTo (fun n => declare ⟨config, n⟩ d) p () p')
      (rest : Misfits config ds p' ms) :
      Misfits config (d :: ds) p (found.toList ++ ms)

end Finding

variable [Lookup] [Lookup.Agrees plan]

theorem gives_following {recipe : Recipe Ty} (hp : p.Sound plan config)
    (hs : recipe.Safe φ (Ty.Firm φ)) :
    (openFrame plan config).Gives (fun _ => following recipe) p fun t p' =>
      Ty.Firm φ t ∧ (∀ N : Naming, N.Completes φ p'.env → (recipe.under N).result = .ok t) ∧
        Adds φ (fun N => (recipe.under N).left) p.env p'.env := by
  have hfollow := Settles.rerun (fun _ => Lookup.Agrees.follow hp.idle hs)
    (Env.gives_follow hs hp.idle.kept hp.idle.resting)
  exact (gives_naming hp hfollow).imp fun _ _ _ hstep h =>
    ⟨h.1, h.2.result, adds_of_perm hstep.1 h.2.tally⟩

theorem gives_bindValue (hp : p.Sound plan config) (name : String) (ht : Ty.Within φ t)
    (span : Option Span) :
    (frame plan config).Gives (fun _ => bindValue name t span) p fun _ _ => True := by
  have hbind : ∀ {p : Pass}, p.Sound plan config → (frame plan config).Gives
      (fun _ => modify fun p => { p with scope := p.scope.bind name t }) p fun _ _ => True := by
    intro p hp
    refine Frame.gives_modify ⟨hp.checker, fun b hb => ?_, hp.aliases⟩
      ((frame plan config).refl p) trivial
    rcases mem_put hb with rfl | hb
    · exact ht
    · exact hp.scope b hb
  refine Frame.Gives.get_bind ?_
  split
  · exact (gives_say hp rfl).bind fun _ _ hp' _ _ => hbind hp'
  · exact hbind hp

/-- Records the type of a declaration and binds its name. -/
theorem gives_bound (hp : p.Sound plan config) (kind : NodeKind) (name : String)
    (ht : Ty.Within φ t) (span : Option Span) :
    (frame plan config).Gives (fun _ => do record kind t; bindValue name t span) p
      fun _ _ => True :=
  (gives_record hp kind t).bind fun _ _ hp' _ _ => gives_bindValue hp' name ht span

theorem gives_hoistFunctions {ds : List Decl} (h : ∀ d ∈ ds, d.Within φ)
    (hp : p.Sound plan config) :
    (openFrame plan config).Gives (fun _ => hoistFunctions ds) p fun _ p' =>
      p'.env.Builds φ false (ds.filterMap Decl.hoisted) ∧
        Adds φ (fun N => (ds.filterMap Decl.hoisted).flatMap (·.leaves N false))
          p.env p'.env := by
  induction ds generalizing p with
  | nil => exact Frame.gives_pure hp ⟨by simp [Env.Builds], adds_of_evolves (.refl p.env)⟩
  | cons d ds ih =>
    obtain ⟨hd, hds⟩ := List.forall_mem_cons.mp h
    cases d with
    | func name signatures receiver span =>
      refine (gives_following hp (Build.safe_ofFunc hd.types)).bind fun t _ hp₁ _ h₁ => ?_
      simp only [← bind_assoc]
      refine (opened (gives_bound hp₁ _ name h₁.1.within span)).bind fun _ _ hp₂ hstep₂ h₂ => ?_
      refine (ih hds hp₂).imp fun _ _ _ hstep₃ h₃ => ⟨?_, ?_⟩
      · have hg := hstep₂.1.trans hstep₃.1
        exact List.forall_mem_cons.mpr ⟨fun N hN => ⟨t, h₁.2.1 N (hN.of_grows hg)⟩, h₃.1⟩
      · exact ((h₁.2.2.trans h₂.2).trans h₃.2).imp fun _ N _ => by
          simp [Decl.hoisted, TypeExpr.leaves, Build.ofFunc]
    | _ => exact ih hds hp

theorem gives_declaredType {declared : Option TypeExpr}
    (h : ∀ e ∈ declared.toList.flatMap (·.parts), φ.Covers e) (hp : p.Sound plan config) :
    (openFrame plan config).Gives (fun _ => declaredType declared) p fun r p' =>
      (∀ t, r = some t → Ty.Within φ t) ∧ p'.env.Builds φ true declared.toList ∧
        Adds φ (fun N => declared.toList.flatMap (·.leaves N true))
          p.env p'.env := by
  cases declared with
  | none =>
    exact Frame.gives_pure hp ⟨by simp, by simp [Env.Builds], adds_of_evolves (.refl p.env)⟩
  | some e =>
    have hs := (Build.safe_type true none e (by simpa using h)).imp fun _ => Build.Made.firm
    refine Frame.Gives.map ((gives_following hp hs).imp fun t _ _ _ ht => ⟨fun u hu => ?_, ?_, ?_⟩)
    · exact Option.some.inj hu ▸ ht.1.within
    · exact List.forall_mem_singleton.mpr fun N hN => ⟨t, ht.2.1 N hN⟩
    · exact ht.2.2.imp fun _ N _ => by simp [TypeExpr.leaves]

theorem gives_ask {s t : Ty} (hs : Ty.Within φ s) (ht : Ty.Within φ t) (hp : p.Sound plan config) :
    (frame plan config).Gives (fun d => checking (Setting.ask ⟨config, d⟩ s t)) p fun v p' =>
      ¬φ.inter → ∀ N : Naming, N.Completes φ p'.env →
        (v = none ↔ (N.reading config.variance).Assignable s t) :=
  gives_checking hp (hp.checker.gives_check hs ht)

theorem gives_initialized {declared : Option Ty} {e : Expr} (binding : Binding)
    (hd : ∀ t, declared = some t → Ty.Within φ t)
    (h : ∀ u ∈ e.parts, u.isMisplaced → φ.malformed) (span : Option Span)
    (hp : p.Sound plan config) :
    (openFrame plan config).Gives (fun d => initialized ⟨config, d⟩ binding declared e span) p
      fun t p' => Ty.Within φ t ∧ ∃ found : Option Misfit,
        (∀ m ∈ found, m.Stands φ config.variance p'.env ∧
          ∃ target, declared = some target ∧ Rejects config p e target span m) ∧
        Adds φ (fun _ => found.toList.map (.say ·.report)) p.env p'.env := by
  refine (opened (gives_infer config e h hp)).comesTo.bind fun typed p₁ hp₁ _ h₁ => ?_
  obtain ⟨⟨htyped, hadds₁⟩, hinferred⟩ := h₁
  cases declared with
  | none =>
    by_cases hw : (binding = .letBinding && config.widenLet.holds) = true
    · simp only [hw, if_true]
      exact Frame.gives_pure hp₁ ⟨Ty.within_widen htyped.type, none, by simp, hadds₁⟩
    · simp only [hw]
      exact Frame.gives_pure hp₁ ⟨htyped.type, none, by simp, hadds₁⟩
  | some target =>
    have ht := hd target rfl
    refine (opened (gives_ask htyped.type ht hp₁)).comesTo.bind fun v p₂ hp₂ _ h₂ => ?_
    obtain ⟨⟨hv, hadds₂⟩, hchecked⟩ := h₂
    cases v with
    | none => exact Frame.gives_pure hp₂ ⟨ht, none, by simp, hadds₁.trans hadds₂⟩
    | some m =>
      refine (gives_accounted hp₂ (misfitReport_kind _ _ _ _)).bind fun _ p₃ hp₃ hstep₃ h₃ => ?_
      refine Frame.gives_pure hp₃ ⟨ht, some ⟨m, typed.type, target, e.span <|> span⟩, ?_,
        (hadds₁.trans hadds₂).trans h₃.adds⟩
      rintro _ ⟨⟩
      refine ⟨⟨htyped.type, ht, fun hni N hN ha => ?_⟩, target, rfl, .mk hinferred hchecked⟩
      simpa using (hv hni N (hN.of_grows hstep₃.1)).mpr ha

theorem gives_declareValue {declared : Option TypeExpr} {init : Option Expr}
    (name : String) (binding : Binding) (span : Option Span)
    (hd : ∀ e ∈ declared.toList.flatMap (·.parts), φ.Covers e)
    (h : ∀ e ∈ init.toList.flatMap (·.parts), e.isMisplaced → φ.malformed)
    (hp : p.Sound plan config) :
    (openFrame plan config).Gives
      (fun d => declareValue ⟨config, d⟩ name binding declared init span) p fun _ p' =>
        p'.env.Builds φ true declared.toList ∧ ∃ found : Option Misfit,
          (∀ m ∈ found, m.Stands φ config.variance p'.env ∧
            Finds config p (.value name binding declared init span) m) ∧
          Adds φ (fun N => declared.toList.flatMap (·.leaves N true) ++
            found.toList.map (.say ·.report)) p.env p'.env := by
  refine (gives_declaredType hd hp).comesTo.bind fun r p₁ hp₁ _ h₁ => ?_
  obtain ⟨⟨hr, hbuilds, hadds₁⟩, hread⟩ := h₁
  cases init with
  | none =>
    have ht : Ty.Within φ (r.getD Ty.any) := by
      cases r with
      | none => exact Ty.within_prim _
      | some t => exact hr t rfl
    refine (opened (gives_bound hp₁ _ name ht span)).imp fun _ _ _ hstep h₂ => ?_
    exact ⟨hbuilds.grow hstep.1, none, by simp, hadds₁.trans h₂.2⟩
  | some e =>
    refine (gives_initialized binding hr (by simpa using h) span hp₁).bind
      fun t p₂ hp₂ hstep₂ h₂ => ?_
    obtain ⟨ht, found, hfound, hadds₂⟩ := h₂
    refine (opened (gives_bound hp₂ .valueDecl name ht span)).imp fun _ _ _ hstep₃ h₃ => ?_
    refine ⟨hbuilds.grow (hstep₂.1.trans hstep₃.1), found, fun m hm => ?_, ?_⟩
    · obtain ⟨hstands, target, rfl, hrejects⟩ := hfound m hm
      refine ⟨hstands.grow hstep₃.1, ?_⟩
      cases declared with
      | none =>
        obtain ⟨bound, hrun⟩ := hread
        cases hrun bound le_rfl
      | some declared => exact .value hread hrejects
    · exact ((hadds₁.trans hadds₂).trans h₃.2).imp fun _ N _ => by simp

theorem gives_noteAlias {name : String} (hp : p.Sound plan config) (hb : p.env.Binds name t) :
    (frame plan config).Gives (fun _ => noteAlias name t) p fun _ p' =>
      ∃ u, (name, u) ∈ p'.aliases := by
  by_cases hknown : (p.aliases.lookup name).isSome
  · refine Frame.gives_modify ?_ ?_ ?_
    · simp only [hknown, if_true]
      exact hp
    · simp only [hknown, if_true]
      exact (frame plan config).refl p
    · simp only [hknown, if_true]
      obtain ⟨u, hu⟩ := Option.isSome_iff_exists.mp hknown
      obtain ⟨as, bs, he, -⟩ := List.lookup_eq_some_iff.mp hu
      exact ⟨u, by simp [he]⟩
  · have hstep := (frame plan config).refl p
    refine Frame.gives_modify ?_ ?_ ?_
    · simp only [hknown]
      refine ⟨hp.checker, hp.scope, List.forall_mem_append.mpr ⟨hp.aliases, ?_⟩⟩
      exact List.forall_mem_singleton.mpr hb
    · simp only [hknown]
      exact ⟨hstep.1, hstep.2.1, List.subset_append_left _ _⟩
    · simp only [hknown]
      exact ⟨t, by simp⟩

theorem gives_declareName {name : String} (kind : NodeKind) (span : Option Span)
    (hk : plan.known name) (hp : p.Sound plan config) :
    (openFrame plan config).Gives (fun _ => declareName kind name span) p fun _ p' =>
      (∃ u, (name, u) ∈ p'.aliases) ∧ Adds φ (fun _ => []) p.env p'.env := by
  have hres := Settles.rerun (fun _ => Lookup.Agrees.resolve span hp.idle hk)
    (Env.gives_resolve hp.idle.kept hp.idle.resting name span)
  refine (gives_naming hp hres).bind fun t p' hp' hstep h => ?_
  have hadds : Adds φ (fun _ => []) p.env p'.env :=
    adds_of_evolves ⟨hstep.1, h.2.tally⟩
  have hrest : (frame plan config).Gives
      (fun _ => do noteAlias name t; record kind t) p' fun _ p'' =>
        ∃ u, (name, u) ∈ p''.aliases :=
    (gives_noteAlias hp' (binds_of_found hp' hk h.2)).bind fun _ _ hp'' _ hnoted =>
      (gives_record hp'' kind t).imp fun _ _ _ _ h => h.2 ▸ hnoted
  exact (opened hrest).imp fun _ _ _ _ h' => ⟨h'.1, hadds.trans h'.2⟩

theorem gives_declare {d : Decl} (h : d.Within φ) (hk : ∀ n, d.typeName = some n → plan.known n)
    (hp : p.Sound plan config) :
    (openFrame plan config).Gives (fun n => declare ⟨config, n⟩ d) p fun _ p' =>
      (∀ n, d.typeName = some n → ∃ u, (n, u) ∈ p'.aliases) ∧
        p'.env.Builds φ true d.annotation.toList ∧
          ∃ found : Option Misfit,
            (∀ m ∈ found, m.Stands φ config.variance p'.env ∧ Finds config p d m) ∧
            Adds φ (fun N => d.annotation.toList.flatMap (·.leaves N true) ++
              found.toList.map (.say ·.report)) p.env p'.env := by
  have hnone : ∀ env : Env, env.Builds φ true [] := fun _ => by simp [Env.Builds]
  cases d with
  | typeAlias name body span =>
    refine (gives_declareName _ span (hk name rfl) hp).imp fun _ _ _ _ h =>
      ⟨fun n hn => ?_, hnone _, none, by simp, h.2⟩
    exact Option.some.inj hn ▸ h.1
  | interface name properties index bases span =>
    refine (gives_declareName _ span (hk name rfl) hp).imp fun _ _ _ _ h =>
      ⟨fun n hn => ?_, hnone _, none, by simp, h.2⟩
    exact Option.some.inj hn ▸ h.1
  | func name signatures receiver span =>
    exact Frame.gives_pure hp
      ⟨by simp [Decl.typeName], hnone _, none, by simp, adds_of_evolves (.refl p.env)⟩
  | value name binding declared init span =>
    exact (gives_declareValue name binding span h.types h.exprs hp).imp fun _ _ _ _ h =>
      ⟨by simp [Decl.typeName], h⟩
  | statement e =>
    have hrecord := (gives_infer config e h.exprs hp).bind fun typed _ hp' _ _ =>
      (gives_record hp' .exprStmt typed.type).imp fun _ _ _ _ _ => trivial
    exact (opened hrecord).imp fun _ _ _ _ h =>
      ⟨by simp [Decl.typeName], hnone _, none, by simp, h.2⟩
  | misplaced node => exact Frame.gives_throw (.inl ⟨h.malformed rfl, by simp⟩)

theorem gives_declareAll {ds : List Decl} (h : ∀ d ∈ ds, d.Within φ)
    (hk : ∀ d ∈ ds, ∀ n, d.typeName = some n → plan.known n) (hp : p.Sound plan config) :
    (openFrame plan config).Gives (fun n => declareAll ⟨config, n⟩ ds) p fun _ p' =>
      (∀ d ∈ ds, ∀ n, d.typeName = some n → ∃ u, (n, u) ∈ p'.aliases) ∧
        p'.env.Builds φ true (ds.filterMap Decl.annotation) ∧
          ∃ ms, Misfits config ds p ms ∧ (∀ m ∈ ms, m.Stands φ config.variance p'.env) ∧
            Adds φ (fun N => (ds.filterMap Decl.annotation).flatMap (·.leaves N true) ++
              ms.map (.say ·.report)) p.env p'.env := by
  induction ds generalizing p with
  | nil =>
    exact Frame.gives_pure hp
      ⟨by simp, by simp [Env.Builds], [], .nil, by simp, adds_of_evolves (.refl p.env)⟩
  | cons d ds ih =>
    obtain ⟨hd, hds⟩ := List.forall_mem_cons.mp h
    obtain ⟨hkd, hkds⟩ := List.forall_mem_cons.mp hk
    have hsplit : (d :: ds).filterMap Decl.annotation =
        d.annotation.toList ++ ds.filterMap Decl.annotation := by
      cases ha : d.annotation <;> simp [ha]
    rw [hsplit]
    refine (gives_declare hd hkd hp).comesTo.bind fun _ _ hp' _ h₁ => ?_
    obtain ⟨⟨hnoted, hbuilds, found, hfound, hadds⟩, hdeclared⟩ := h₁
    refine (ih hds hkds hp').imp fun _ _ _ hstep h₂ => ?_
    obtain ⟨hnoted', hbuilds', ms, hms, hstand, hadds'⟩ := h₂
    refine ⟨?_, ?_, found.toList ++ ms, ?_, ?_, ?_⟩
    · refine List.forall_mem_cons.mpr ⟨fun n hn => ?_, hnoted'⟩
      obtain ⟨u, hu⟩ := hnoted n hn
      exact ⟨u, hstep.2 hu⟩
    · exact List.forall_mem_append.mpr ⟨hbuilds.grow hstep.1, hbuilds'⟩
    · exact .cons (fun m hm => (hfound m hm).2) hdeclared hms
    · refine List.forall_mem_append.mpr ⟨fun m hm => ?_, hstand⟩
      exact (hfound m (Option.mem_toList.mp hm)).1.grow hstep.1
    · refine ⟨(hadds.trans hadds').grows, fun hni => ?_⟩
      obtain ⟨said, hplain, hperm⟩ := (hadds.trans hadds').tally hni
      refine ⟨said, hplain, fun N hN => (hperm N hN).trans ?_⟩
      rw [← Multiset.coe_eq_coe]
      simp only [List.flatMap_append, List.map_append, ← Multiset.coe_add]
      abel

theorem gives_handled {act : Nat → PassM α} {Post : α → Pass → Prop} (hs : p.env.Settled)
    (h : (frame plan config).Gives act p Post) :
    (openFrame plan config).Gives act p fun a p' =>
      Post a p' ∧ Handles φ (fun _ => []) p p' := by
  refine Settles.imp h ?_
  rintro a p' ⟨hp', ⟨hlater, hadds, haliases⟩, hpost⟩
  have hnone : p.env.waiting = 0 := by
    refine List.countP_eq_zero.mpr fun c hc => ?_
    have hc := hs c hc
    cases hprog : c.progress <;> simp_all [Progress.isWaiting, Progress.isSettled]
  refine ⟨hp', ⟨hadds.grows, haliases⟩, hpost, hadds, hlater.resolve_left fun hlt => ?_⟩
  have hlt : p'.env.waiting < p.env.waiting := hlt
  omega

theorem gives_checkRefinement {fs gs : List (Field Ty)} (interface : String)
    (hf : ∀ f ∈ fs, Ty.Within φ f.type) (hg : ∀ g ∈ gs, Ty.Within φ g.type)
    (declared : List (String × Option Span)) (hp : p.Sound plan config) :
    (frame plan config).Gives (fun d => checkRefinement ⟨config, d⟩ interface fs gs declared) p
      fun _ p' => ¬φ.inter → p'.env.diagnostics = [] → ∀ N : Naming, N.Completes φ p'.env →
        (Obligation.refinement interface declared fs gs).Refines (N.reading config.variance) := by
  induction declared generalizing p with
  | nil => exact Frame.gives_pure hp fun _ _ _ _ => by simp [Obligation.Refines]
  | cons b declared ih =>
    obtain ⟨name, span⟩ := b
    simp only [checkRefinement, Obligation.Refines, List.forall_mem_cons] at ih ⊢
    cases hbase : Field.find? gs name with
    | none =>
      exact (ih hp).imp fun _ _ _ _ h hni hd N hN => ⟨by simp, h hni hd N hN⟩
    | some base =>
      cases hown : Field.find? fs name with
      | none =>
        exact (ih hp).imp fun _ _ _ _ h hni hd N hN => ⟨by simp, h hni hd N hN⟩
      | some own =>
        have howned := hf own (Field.find?_eq_some hown).1
        have hinherited := hg base (Field.find?_eq_some hbase).1
        refine (gives_ask howned hinherited hp).bind fun v p₁ hp₁ _ hv => ?_
        cases v with
        | none =>
          refine (ih hp₁).imp fun _ _ _ hstep h hni hd N hN => ⟨?_, h hni hd N hN⟩
          rintro _ _ ⟨⟩ ⟨⟩
          exact (hv hni N (hN.of_grows hstep.2.1.grows)).mp rfl
        | some m =>
          refine (gives_say hp₁ rfl).bind fun _ p₂ hp₂ _ hsaid => ?_
          refine (ih hp₂).imp fun _ _ _ hstep _ _ hd => ?_
          have hkept := hstep.2.1.grows.diagnostics.subset hsaid
          rw [hd] at hkept
          cases hkept

theorem gives_checkWaiting {fs : List (Field Ty)} (ht : Ty.Within φ t) (span : Option Span)
    (hf : ∀ f ∈ fs, Ty.Within φ f.type) (hp : p.Sound plan config) (hs : p.env.Settled) :
    (openFrame plan config).Gives (fun d => checkWaiting ⟨config, d⟩ t span fs) p fun _ p' =>
      Handles φ (fun N => ((misfits (N.reading config.variance) t fs).map
        (indexViolation t span)).map .say) p p' := by
  induction fs generalizing p with
  | nil => exact Frame.gives_pure hp (.refl p)
  | cons f fs ih =>
    obtain ⟨hf, hfs⟩ := List.forall_mem_cons.mp hf
    by_cases hdefers : (f.type.defers || t.defers) = true
    · simp only [checkWaiting, hdefers, if_true]
      refine (gives_handled hs (gives_ask hf ht hp)).bind fun v p₁ hp₁ _ h₁ => ?_
      have hs₁ := h₁.2.settled hs
      cases v with
      | none =>
        refine (ih hfs hp₁ hs₁).imp fun _ _ _ hstep h₂ => (h₁.2.trans h₂).imp fun hni N hN => ?_
        have hfits := (h₁.1 hni N (hN.of_grows hstep.1)).mp rfl
        simp [misfits, hfits]
      | some m =>
        refine (gives_accounted hp₁ rfl).bind fun _ p₂ hp₂ hstep₂ h₂ => ?_
        refine (ih hfs hp₂ (h₂.settled hs₁)).imp fun _ _ _ hstep h₃ =>
          ((h₁.2.trans h₂).trans h₃).imp fun hni N hN => ?_
        have hmisfit : ¬(N.reading config.variance).Assignable f.type t := fun ha => by
          simpa using (h₁.1 hni N (hN.of_grows (hstep₂.1.trans hstep.1))).mpr ha
        simp [misfits, hmisfit, hdefers]
    · simp only [checkWaiting, hdefers]
      refine (ih hfs hp hs).imp fun _ _ _ _ h => h.imp fun _ N _ => ?_
      simp [misfits, hdefers]

theorem gives_dischargeRefinement {duty : Obligation} (hd : duty.Within φ)
    (hp : p.Sound plan config) (hs : p.env.Settled) :
    (openFrame plan config).Gives (fun d => dischargeRefinement ⟨config, d⟩ duty) p fun _ p' =>
      Handles φ (fun _ => []) p p' ∧ Met φ config duty p' := by
  cases duty with
  | index fs i name span => exact Frame.gives_pure hp ⟨.refl p, fun _ _ _ _ => trivial⟩
  | refinement interface declared fs gs =>
    exact (gives_handled hs (gives_checkRefinement interface hd.1 hd.2 declared hp)).imp
      fun _ _ _ _ h => ⟨h.2, h.1⟩

theorem gives_dischargeIndex {duty : Obligation} (hd : duty.Within φ) (hp : p.Sound plan config)
    (hs : p.env.Settled) :
    (openFrame plan config).Gives (fun d => dischargeIndex ⟨config, d⟩ duty) p fun _ p' =>
      Handles φ (fun N => (duty.late (N.reading config.variance)).map .say) p p' ∧ True := by
  cases duty with
  | index fs i name span =>
    exact (gives_checkWaiting hd.2 span hd.1 hp hs).imp fun _ _ _ _ h => ⟨h, trivial⟩
  | refinement interface declared fs gs => exact Frame.gives_pure hp ⟨.refl p, trivial⟩

theorem gives_discharge (hp : p.Sound plan config) (hs : p.env.Settled) :
    (openFrame plan config).Gives (fun d => discharge ⟨config, d⟩) p fun _ p' =>
      Handles φ (fun N => (p.env.duties.flatMap
        (·.late (N.reading config.variance))).map .say) p p' ∧
        ∀ duty ∈ p.env.duties, Met φ config duty p' := by
  have hrefinement := gives_dischargeAll (fun _ _ => gives_dischargeRefinement) met_stable hp hs
  refine hrefinement.bind fun _ p₁ hp₁ _ h₁ => ?_
  have hindex := gives_dischargeAll (fun _ _ => gives_dischargeIndex)
    (fun _ _ _ _ _ => trivial) hp₁ (h₁.1.settled hs)
  refine hindex.imp fun _ p₂ _ hstep h₂ => ⟨?_, ?_⟩
  · refine (h₁.1.trans h₂.1).imp fun _ N _ => ?_
    simp [h₁.1.still.duties, List.map_flatMap]
  · exact fun b hb => met_stable b _ _ hstep (h₁.2 b hb)

/-- What comes before the declarations are gone through: every name of a type gets its cell, and
every function is bound. -/
def prepare (program : Program) : PassM Unit := do
  registerTypes program.declarations
  hoistFunctions program.declarations

theorem run_eq (s : Setting) (program : Program) : run s program = (do
    prepare program
    declareAll s program.declarations
    discharge s
    let p ← get
    pure ⟨p.diagnostics, p.scope.sorted, p.aliases, p.nodes⟩) := by
  simp only [run, prepare, bind_assoc]

/-- What is known of a pass when it has prepared for a program. -/
structure Prepared {program : Program} (h : program.Within φ) (config : Config) (p : Pass) :
    Prop where
  sound : p.Sound (program.plan h) config
  apart : p.env.diagnostics = [] → ∀ d ∈ program.declarations, d.typeName.isSome →
    d ∈ program.firsts
  hoisted : p.env.Builds φ false (program.declarations.filterMap Decl.hoisted)
  tally : ¬φ.inter → ∃ said : List Diagnostic, (∀ d ∈ said, d.kind.isPlain) ∧
    ∀ N : Naming, N.Completes φ p.env → (p.env.tally N).Perm
      (program.firsts.flatMap (fun d => (d.recipe.under N).left) ++
        (program.declarations.filterMap Decl.hoisted).flatMap (·.leaves N false) ++
          said.map .say)

theorem settles_prepare {program : Program} (config : Config) (h : program.Within φ)
    [Lookup.Agrees (program.plan h)] :
    Settles φ.Err (fun _ => prepare program) empty (fun _ => Prepared h config) := by
  refine (settles_registerTypes φ.Err program.declarations empty).bind fun _ p₁ h₁ => ?_
  have hp₁ : p₁.Sound (program.plan h) config := sound_registered h h₁
  obtain ⟨said₁, hsaid₁, hfirsts, htally₁⟩ := tally_registered h₁
  refine Settles.imp (gives_hoistFunctions h.declaration hp₁) ?_
  rintro _ p₂ ⟨hp₂, -, hbuilds, hadds⟩
  refine ⟨hp₂, fun hnil => hfirsts ?_, hbuilds, fun hni => ?_⟩
  · have hsub := hadds.grows.diagnostics.subset
    rw [hnil] at hsub
    exact List.subset_nil.mp hsub
  · obtain ⟨said, hsaid, hperm⟩ := hadds.tally hni
    refine ⟨said₁ ++ said, List.forall_mem_append.mpr ⟨hsaid₁, hsaid⟩, fun N hN => ?_⟩
    refine (hperm N hN).trans ?_
    rw [htally₁, ← Multiset.coe_eq_coe]
    simp only [List.map_append, ← Multiset.coe_add]
    abel

/-- What is known of a pass when it has checked a program. All problems are accounted for: what the
recipes leave behind, what the duties bring, the misfits of initializers and plain ones. -/
structure Concludes {program : Program} (h : program.Within φ) (config : Config)
    (report : Report) (p : Pass) : Prop where
  sound : p.Sound (program.plan h) config
  settled : p.env.Settled
  diagnostics : report.diagnostics = p.env.diagnostics
  aliases : report.aliases = p.aliases
  noted : ∀ n, program.declares n → ∃ t, (n, t) ∈ p.aliases
  apart : report.diagnostics = [] → ∀ d ∈ program.declarations, d.typeName.isSome →
    d ∈ program.firsts
  hoisted : p.env.Builds φ false (program.declarations.filterMap Decl.hoisted)
  annotated : p.env.Builds φ true (program.declarations.filterMap Decl.annotation)
  met : ∀ duty ∈ p.env.duties, Met φ config duty p
  tally : ∃ p₀ ms, ComesTo (fun _ => prepare program) empty () p₀ ∧
    Misfits config program.declarations p₀ ms ∧ (∀ m ∈ ms, m.Stands φ config.variance p.env) ∧
    (¬φ.inter → ∃ said : List Diagnostic, (∀ d ∈ said, d.kind.isPlain) ∧
      (p.env.tally p.env.naming).Perm (program.leaves p.env.naming ++
        (p.env.duties.flatMap (·.late (p.env.naming.reading config.variance))).map .say ++
          ms.map (.say ·.report) ++ said.map .say))

/-- A pass over a program comes to an end, and between its steps everything is as it should be. -/
theorem settles_run {program : Program} (config : Config) (h : program.Within φ)
    [Lookup.Agrees (program.plan h)] :
    Settles φ.Err (fun d => run ⟨config, d⟩ program) empty (Concludes h config) := by
  have hk : ∀ d ∈ program.declarations, ∀ n, d.typeName = some n → (program.plan h).known n :=
    fun d hd n hn => List.find?_isSome.mpr ⟨d, hd, by simpa using hn⟩
  simp only [run_eq]
  refine (settles_prepare config h).comesTo.bind ?_
  rintro _ p₂ ⟨hprepared, hcomes⟩
  refine Settles.bind (gives_declareAll h.declaration hk hprepared.sound) ?_
  rintro _ p₃ ⟨hp₃, hstep₃, hnotes, hannotated, ms, hms, hstand, hadds₃⟩
  have hnoted : ∀ n, program.declares n → ∃ t, (n, t) ∈ p₃.aliases := by
    intro n hn
    obtain ⟨d, hd⟩ := Option.isSome_iff_exists.mp hn
    obtain ⟨hm, hname⟩ := Program.declaration?_eq_some hd
    exact hnotes d hm n hname
  refine Settles.bind (gives_discharge hp₃ (settled_of_noted hp₃ hnoted)) ?_
  rintro _ p₄ ⟨hp₄, hstep₄, h₄⟩
  have hadds := hadds₃.trans h₄.1.adds
  refine Settles.get_bind (settles_pure ⟨hp₄, h₄.1.settled (settled_of_noted hp₃ hnoted), rfl, rfl,
    fun n hn => ?_, fun hnil => hprepared.apart ?_, hprepared.hoisted.grow hadds.grows,
    hannotated.grow hstep₄.1, fun duty hd => ?_, p₂, ms, hcomes, hms,
    fun m hm => (hstand m hm).grow hstep₄.1, fun hni => ?_⟩)
  · obtain ⟨t, ht⟩ := hnoted n hn
    exact ⟨t, hstep₄.2 ht⟩
  · have hsub := hadds.grows.diagnostics.subset
    rw [show p₄.env.diagnostics = [] from hnil] at hsub
    exact List.subset_nil.mp hsub
  · exact h₄.2 duty (h₄.1.still.duties ▸ hd)
  · have hN := hp₄.idle.kept.completes
    obtain ⟨said₂, hsaid₂, hperm₂⟩ := hprepared.tally hni
    obtain ⟨said, hsaid, hperm⟩ := hadds.tally hni
    refine ⟨said₂ ++ said, List.forall_mem_append.mpr ⟨hsaid₂, hsaid⟩, ?_⟩
    have hperm₂ := hperm₂ _ (hN.of_grows hadds.grows)
    refine (hperm _ hN).trans ?_
    rw [← Multiset.coe_eq_coe] at hperm₂ ⊢
    simp only [h₄.1.still.duties, Program.leaves, List.map_append, ← Multiset.coe_add] at hperm₂ ⊢
    rw [hperm₂]
    abel

end Pass
end ShapeCheck

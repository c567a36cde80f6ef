import ShapeCheck.Proofs.Env.Settled
import ShapeCheck.Proofs.Fit.Decide
import ShapeCheck.Proofs.Ty.Arising

/-! Types without intersections in an environment whose names are all settled. -/

namespace ShapeCheck

def Ty.NotInter (t : Ty) : Prop := ∀ ms, t ≠ .inter ms

instance : DecidablePred Ty.NotInter
  | .inter ms => isFalse fun h => h ms rfl
  | .prim _ | .literal _ | .array _ | .tuple _ | .object _ _ _ | .union _ | .func _ _ | .ctor _
  | .ref _ => isTrue nofun

namespace Env
variable {env : Env} {t u : Ty}

/-- The rules read in an environment. -/
def reading (env : Env) (variance : Variance) : Reading := ⟨env.meaning, variance⟩

/-- A type met when another one is taken apart and its references are followed. -/
inductive Reaches (env : Env) : Ty → Ty → Prop
  | here (t : Ty) : Reaches env t t
  | child {t u v : Ty} (h : u ∈ t.children) (hv : Reaches env u v) : Reaches env t v
  | named {t v : Ty} (hv : Reaches env (env.meaning t) v) : Reaches env t v

/-- No intersection, not behind references either. -/
def InterFree (env : Env) (t : Ty) : Prop := ∀ u, env.Reaches t u → u.NotInter

/-- A type that can be built, without intersections. -/
structure Plain (env : Env) (t : Ty) : Prop where
  proper : t.Proper
  interFree : env.InterFree t

theorem notInter_ref (n : String) : Ty.Everywhere Ty.NotInter (.ref n) :=
  .leaf (by simp [Ty.NotInter]) rfl

theorem notInter_prim (k : Prim) : Ty.Everywhere Ty.NotInter (.prim k) :=
  .leaf (by simp [Ty.NotInter]) rfl

/-- Intersections are not met if none is written anywhere. -/
theorem interFree_of_everywhere
    (hv : ∀ t ∈ env.values, Ty.Everywhere Ty.NotInter t) (ht : Ty.Everywhere Ty.NotInter t) :
    env.InterFree t := by
  intro u hu
  induction hu with
  | here => exact ht.here
  | child h _ ih => exact ih (ht.child h)
  | named _ ih => exact ih (meaning_mem (notInter_prim _) (notInter_prim _) hv ht)

theorem Plain.child (h : env.Plain t) (hu : u ∈ t.children) : env.Plain u :=
  ⟨h.proper.child hu, fun v hv => h.interFree v (.child hu hv)⟩

theorem Plain.meaning (hv : ∀ t ∈ env.values, t.Proper) (h : env.Plain t) :
    env.Plain (env.meaning t) :=
  ⟨meaning_mem (.leaf trivial rfl) (.leaf trivial rfl) hv h.proper,
    fun u hu => h.interFree u (.named hu)⟩

theorem plain_any : env.Plain Ty.any := by
  refine ⟨.leaf trivial rfl, fun u hu => ?_⟩
  have hstay : ∀ {t u}, env.Reaches t u → t = Ty.any → u = Ty.any := by
    intro t u h
    induction h with
    | here => exact id
    | child h _ _ => rintro rfl; cases h
    | named _ ih => rintro rfl; exact ih (meaning_of_not_ref (by simp [Ty.any]))
  rw [hstay hu rfl]
  exact (notInter_prim .any).here

theorem plain_ref (hv : ∀ t ∈ env.values, Ty.Everywhere Ty.NotInter t) (n : String) :
    env.Plain (.ref n) :=
  ⟨.leaf trivial rfl, interFree_of_everywhere hv (notInter_ref n)⟩

theorem faithful (hv : ∀ t ∈ env.values, t.Proper) (variance : Variance) :
    (env.reading variance).Faithful env.Plain where
  any := plain_any
  child := Plain.child
  look := Plain.meaning hv
  proper h := h.proper
  look_same := look_same_of_not_ref fun _ => meaning_of_not_ref
  look_look := env.meaning_meaning

theorem governs (hs : env.Settled) (variance : Variance) (memoize : Bool) (Adm : Ty → Prop) :
    (env.reading variance).Governs (surroundings variance memoize)
      (fun env' => env'.cells = env.cells) Adm where
  variance := rfl
  unwrap {env' t} hc _ := by
    have hs' : env'.Settled := fun c hm => hs c (hc ▸ hm)
    obtain ⟨env'', hrun, hcells⟩ := unwrap_settled hs' t
    refine ⟨env'', hcells.trans hc, ?_⟩
    rw [meaning_congr hc] at hrun
    exact hrun

/-- The types inside the given ones and inside those of the names are enough. -/
theorem exists_closed (env : Env) (variance : Variance) (s t : Ty) :
    ∃ U, (env.reading variance).Closed U ∧ s ∈ U ∧ t ∈ U := by
  obtain ⟨U, hf, hb, hr⟩ := Ty.exists_base (s :: t :: env.values)
  refine ⟨U, ⟨⟨hb.any, fun ht hu => hb.child ht hu, fun ht => ?_⟩, hf⟩, ?_, ?_⟩
  · exact meaning_mem hb.any hb.never (fun u hu => hr u (by simp [hu])) ht
  · exact hr s (by simp)
  · exact hr t (by simp)

theorem readsWithoutInter (hs : env.Settled) (hv : ∀ t ∈ env.values, t.Proper) (variance : Variance)
    (memoize : Bool) :
    ReadsWithoutInter (surroundings variance memoize) (env.reading variance)
      (fun env' => env'.cells = env.cells) env.Plain where
  governs := governs hs variance memoize env.Plain
  faithful := faithful hv variance
  noInter h := h.interFree _ (.here _)
  closed := env.exists_closed variance

end Env
end ShapeCheck

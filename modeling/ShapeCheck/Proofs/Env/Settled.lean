import Mathlib.Data.List.Perm.Subperm
import ShapeCheck.Env.Resolve
import ShapeCheck.Proofs.Settle

/-! Environments in which every name is settled: what references stand for there, and that looking
them up changes nothing but the reports. -/

namespace ShapeCheck.Env
variable {env env' : Env} {name : String} {t : Ty}

/-- Every defined name has its type. -/
def Settled (env : Env) : Prop := ∀ c ∈ env.cells, c.progress.isSettled

instance (env : Env) : Decidable env.Settled :=
  inferInstanceAs (Decidable (∀ c ∈ env.cells, c.progress.isSettled = true))

/-- What a name is bound to: its type, or `any` for one that is not defined. -/
def bound (env : Env) (name : String) : Ty :=
  match env.find? name with
  | none => Ty.any
  | some cell =>
    match cell.progress with
    | .settled t => t
    | _ => Ty.never

/-- Follows references, each name once; one that leads back to a name seen stands for `never`. -/
def chase (env : Env) : Nat → List String → Ty → Ty
  | fuel + 1, seen, .ref name =>
    if seen.contains name then Ty.never else chase env fuel (name :: seen) (env.bound name)
  | _, _, .ref _ => Ty.never
  | _, _, t => t

/-- What a type stands for. -/
def meaning (env : Env) (t : Ty) : Ty := env.chase env.chainBound [] t

/-- The types of defined names. -/
def values (env : Env) : List Ty :=
  env.cells.filterMap fun c =>
    match c.progress with
    | .settled t => some t
    | _ => none

theorem chase_of_not_ref (h : ∀ n, t ≠ .ref n) (fuel : Nat) (seen : List String) :
    env.chase fuel seen t = t := by
  unfold chase
  split
  · exact (h _ rfl).elim
  · exact (h _ rfl).elim
  · rfl

theorem chase_not_ref (fuel : Nat) (seen : List String) (t : Ty) (n : String) :
    env.chase fuel seen t ≠ .ref n := by
  fun_induction chase env fuel seen t with
  | case1 => nofun
  | case2 _ _ _ _ ih => exact ih
  | case3 => nofun
  | case4 _ _ _ h => exact h n

theorem meaning_not_ref (env : Env) (t : Ty) (n : String) : env.meaning t ≠ .ref n :=
  chase_not_ref _ _ t n

theorem meaning_of_not_ref (h : ∀ n, t ≠ .ref n) : env.meaning t = t := chase_of_not_ref h _ _

theorem meaning_meaning (env : Env) (t : Ty) : env.meaning (env.meaning t) = env.meaning t :=
  meaning_of_not_ref (env.meaning_not_ref t)

theorem bound_mem {P : Ty → Prop} (ha : P Ty.any) (hn : P Ty.never) (hv : ∀ u ∈ env.values, P u)
    (name : String) : P (env.bound name) := by
  unfold bound
  cases hf : env.find? name with
  | none => exact ha
  | some cell =>
    dsimp only
    cases hp : cell.progress with
    | settled t =>
      exact hv t (List.mem_filterMap.mpr ⟨cell, List.mem_of_find?_eq_some hf, by simp [hp]⟩)
    | _ => exact hn

/-- A type stands for itself, for one of the extremes, or for the type of a name. -/
theorem meaning_mem {P : Ty → Prop} (ha : P Ty.any) (hn : P Ty.never) (hv : ∀ u ∈ env.values, P u)
    (ht : P t) : P (env.meaning t) := by
  unfold meaning
  generalize env.chainBound = fuel, [] = seen
  fun_induction chase env fuel seen t with
  | case1 => exact hn
  | case2 _ _ name _ ih => exact ih (bound_mem ha hn hv name)
  | case3 => exact hn
  | case4 => exact ht

theorem bound_congr (h : env'.cells = env.cells) (name : String) :
    env'.bound name = env.bound name := by
  simp only [bound, find?, h]

theorem chase_congr (h : env'.cells = env.cells) (fuel : Nat) (seen : List String) (t : Ty) :
    env'.chase fuel seen t = env.chase fuel seen t := by
  fun_induction chase env fuel seen t with
  | case1 _ _ _ hc => simp only [chase, hc, if_true]
  | case2 _ _ name hc ih => simp only [chase, hc, bound_congr h]; exact ih
  | case3 fuel seen name hn =>
    cases fuel with
    | zero => rfl
    | succ fuel => exact (hn fuel rfl).elim
  | case4 _ _ _ hn => exact chase_of_not_ref (fun n he => hn n he) _ _

theorem meaning_congr (h : env'.cells = env.cells) (t : Ty) : env'.meaning t = env.meaning t := by
  simp only [meaning, chainBound, h, chase_congr h]

/-- Resolving a name gives its type, and at most reports that there is no such name. -/
theorem resolveBy_settled (hs : env.Settled) (run : Recipe Ty → EnvM Ty) (name : String)
    (span : Option Span) :
    ∃ env', (resolveBy run name span).run.run env = (.ok (env.bound name), env') ∧
      env'.cells = env.cells := by
  have hget : (get : EnvM Env).run.run env = (.ok env, env) := rfl
  unfold resolveBy bound
  rw [run_bind, hget]
  dsimp only
  cases hf : env.find? name with
  | none =>
    refine ⟨reportMissing name span env, rfl, ?_⟩
    unfold reportMissing
    split <;> rfl
  | some cell =>
    have hc := hs cell (List.mem_of_find?_eq_some hf)
    dsimp only
    cases hp : cell.progress with
    | settled t => exact ⟨env, rfl, rfl⟩
    | _ => simp [hp, Progress.isSettled] at hc

theorem resolveWithin_settled (hs : env.Settled) (fuel : Nat) (name : String)
    (span : Option Span) :
    ∃ env', (resolveWithin fuel name span).run.run env = (.ok (env.bound name), env') ∧
      env'.cells = env.cells := by
  cases fuel with
  | zero => exact resolveBy_settled hs _ name span
  | succ fuel => exact resolveBy_settled hs _ name span

theorem unwrapBy_of_not_ref {resolve : Resolver} (h : ∀ n, t ≠ .ref n) (fuel : Nat)
    (seen : List String) : unwrapBy resolve fuel seen t = pure t := by
  unfold unwrapBy
  split
  · exact (h _ rfl).elim
  · exact (h _ rfl).elim
  · rfl

theorem unwrap_eq_pure (h : ∀ n, t ≠ .ref n) : unwrap t = pure t := by
  cases t with
  | ref n => exact (h n rfl).elim
  | _ => rfl

/-- References are followed to what they stand for. No name is met twice on the way, so the names
that there are bound the steps. -/
theorem unwrapBy_settled (hs : env.Settled) (n fuel : Nat) (seen : List String) (t : Ty)
    (hnd : seen.Nodup) (hsub : seen ⊆ env.names) (hfuel : env.cells.length < fuel + seen.length) :
    ∃ env', (unwrapBy (resolveWithin n) fuel seen t).run.run env =
      (.ok (env.chase fuel seen t), env') ∧ env'.cells = env.cells := by
  induction fuel generalizing env seen t with
  | zero =>
    have hl := (hnd.subperm hsub).length_le
    simp only [names, List.length_map] at hl
    omega
  | succ fuel ih =>
    by_cases hr : ∃ name, t = .ref name
    · obtain ⟨name, rfl⟩ := hr
      unfold unwrapBy chase
      by_cases hm : seen.contains name
      · simp only [hm, if_true]
        exact ⟨env, rfl, rfl⟩
      · simp only [hm, Bool.false_eq_true, if_false]
        obtain ⟨env₁, hrun, hcells⟩ := resolveWithin_settled hs n name none
        rw [run_bind, hrun, ← chase_congr hcells]
        dsimp only
        have hs₁ : env₁.Settled := fun c hc => hs c (hcells ▸ hc)
        by_cases hd : name ∈ env.names
        · have hm' : name ∉ seen := by simpa using hm
          have hnames : env₁.names = env.names := by simp only [names, hcells]
          obtain ⟨env₂, hrun₂, hcells₂⟩ := ih hs₁ (name :: seen) (env.bound name)
            (List.nodup_cons.mpr ⟨hm', hnd⟩)
            (hnames ▸ List.cons_subset.mpr ⟨hd, hsub⟩)
            (by simp only [hcells, List.length_cons]; omega)
          exact ⟨env₂, hrun₂, hcells₂.trans hcells⟩
        · have hb : env.bound name = Ty.any := by
            have hf : env.find? name = none := by
              refine List.find?_eq_none.mpr fun c hc he => hd ?_
              exact List.mem_map.mpr ⟨c, hc, by simpa using he⟩
            simp [bound, hf]
          rw [hb]
          cases fuel <;> exact ⟨env₁, rfl, hcells⟩
    · have ht : ∀ name, t ≠ .ref name := fun name he => hr ⟨name, he⟩
      rw [chase_of_not_ref ht]
      rw [unwrapBy_of_not_ref ht]
      exact ⟨env, rfl, rfl⟩

theorem unwrap_settled (hs : env.Settled) (t : Ty) :
    ∃ env', (unwrap t).run.run env = (.ok (env.meaning t), env') ∧ env'.cells = env.cells := by
  have hget : (get : EnvM Env).run.run env = (.ok env, env) := rfl
  unfold unwrap
  rw [run_bind, hget]
  exact unwrapBy_settled hs _ _ [] t List.nodup_nil (List.nil_subset _)
    (by simp [chainBound])

end ShapeCheck.Env

import ShapeCheck.Proofs.Fit.InterRefFree
import ShapeCheck.Proofs.Ty.Height

/-! Questions about types without references lead to questions of a lower rank, intersections
included. So every check of such types comes to an end, and no question is met again while it is
under way. -/

namespace ShapeCheck
variable {σ : Type} {ctx : Surroundings σ} {φ : Features} {Err : Fault → Prop}
  {Rec : Question × Verdict → Prop} {world : σ} {n : ℕ ×ₗ ℕ} {H : Nat} {st : CheckState σ}
  {s t : Ty}

/-- Surroundings in which nothing but a reference has to be followed, and objects are built as
usual. -/
structure Surroundings.Level (ctx : Surroundings σ) : Prop where
  unwrap : ∀ {t : Ty}, (∀ n, t ≠ .ref n) → ctx.unwrap t = pure t
  objectOf : ∀ (fs : List (Field Ty)) (i : Option (Index Ty)),
    ctx.objectOf fs i = Ty.objectOf fs i none

/-- Features of types without references. -/
structure Features.Bare (φ : Features) : Prop where
  nameless : ∀ n, φ.known n = false

theorem Features.Bare.not_ref (hφ : φ.Bare) (ht : Ty.Within φ t) : ∀ n, t ≠ .ref n := by
  rintro n rfl
  have := ht.here.ref rfl
  rw [hφ.nameless] at this
  cases this

theorem Surroundings.Level.resolve (hc : ctx.Level) (hφ : φ.Bare) (ht : Ty.Within φ t) :
    ctx.resolve t = pure t :=
  Surroundings.resolve_eq (hc.unwrap (hφ.not_ref ht))

theorem Ty.interRefFree_of_within (hφ : φ.Bare) (hi : ¬φ.inter) (ht : Ty.Within φ t) :
    t.InterRefFree := by
  refine ⟨ht.proper, ht.imp fun u hu => ⟨fun ms he => hi (hu.inter he), fun m he => ?_⟩⟩
  have hknown := hu.ref he
  rw [hφ.nameless] at hknown
  cases hknown

def Ty.isRef : Ty → Bool
  | .ref _ => true
  | _ => false

/-- Everything but names. -/
def Features.unnamed : Features := ⟨True, True, False, fun _ => false⟩

theorem Ty.Within.not_ref (h : Ty.Within .unnamed t) : ∀ n, t ≠ .ref n :=
  Features.Bare.not_ref ⟨fun _ => rfl⟩ h

/-- Everything but names and indexes. -/
def Features.unindexed : Features := ⟨True, False, False, fun _ => false⟩

theorem Features.not_err_unindexed {e : Fault} : ¬Features.unindexed.Err e := by
  rintro (⟨hm, _⟩ | ⟨_, _, hi⟩)
  · exact hm
  · exact hi

theorem Ty.within_unnamed (hp : t.Proper) (hr : Everywhere (isRef · = false) t) :
    Within .unnamed t := by
  induction hp with
  | @mk u here _ ih =>
    refine .mk ⟨here, fun _ => trivial, fun _ => trivial, fun he => ?_⟩ fun v hv =>
      ih v hv (hr.child hv)
    subst he
    cases hr.here

theorem Ty.Within.unnamed (hφ : φ.Bare) (h : Within φ t) : Within .unnamed t :=
  h.imp fun _ ha => ⟨ha.shaped, fun _ => trivial, fun _ => trivial, fun he => by
    have hknown := ha.ref he
    rwa [hφ.nameless] at hknown⟩

theorem Ty.Within.unindexed (h : Within .unnamed t) (hi : Everywhere (·.index? = none) t) :
    Within .unindexed t := by
  induction h with
  | mk here _ ih =>
    refine .mk ⟨here.shaped, fun he => ?_, here.inter, here.ref⟩ fun v hv =>
      ih v hv (hi.child hv)
    subst he
    cases hi.here

theorem Env.surroundings_level (variance : Variance) (memoize : Bool) :
    (Env.surroundings variance memoize).Level :=
  ⟨Env.unwrap_eq_pure, fun _ _ => rfl⟩

theorem Surroundings.Level.readsWithoutInter (hc : ctx.Level) :
    ReadsWithoutInter ctx (.asIs ctx.variance) (fun _ => True) Ty.InterRefFree :=
  Reading.readsWithoutInter_asIs rfl fun _ ht => hc.unwrap ht

/-- Nothing is assumed, the questions under way are of some rank at least, and the verdicts on
record are of some kind. -/
structure CheckState.Above (Rec : Question × Verdict → Prop) (world : σ) (n : ℕ ×ₗ ℕ)
    (st : CheckState σ) : Prop where
  world : st.world = world
  lowest : st.memo.lowest = none
  pending : ∀ q ∈ st.memo.pending,
    q.source.Proper ∧ q.target.Proper ∧ n ≤ Ty.rank q.source q.target
  records : ∀ e ∈ st.memo.verdicts, Rec e

theorem fresh_above (Rec : Question × Verdict → Prop) (world : σ) (n : ℕ ×ₗ ℕ) :
    (⟨Memo.empty, world⟩ : CheckState σ).Above Rec world n :=
  ⟨rfl, rfl, fun q hq => (by cases hq), fun e he => by cases he⟩

/-- The world stays as it is, and so do the questions under way. -/
def descentFrame (Err : Fault → Prop) (Rec : Question × Verdict → Prop) (world : σ)
    (n : ℕ ×ₗ ℕ) : Frame (CheckState σ) where
  Err := Err
  Inv := CheckState.Above Rec world n
  Step st st' := st'.memo.pending = st.memo.pending
  refl _ := rfl
  trans h h' := h'.trans h

/-- A question of lower rank is not under way. -/
theorem CheckState.Above.depth?_eq_none {q : Question} (hi : st.Above Rec world n)
    (hq : Ty.rank q.source q.target < n) : st.memo.depth? q = none := by
  by_contra hd
  obtain ⟨d, hd⟩ := Option.ne_none_iff_exists'.mp hd
  obtain ⟨p, hp, hs⟩ := Memo.mem_of_depthIn hd
  obtain ⟨hps, hpt, hle⟩ := hi.pending p (List.mem_of_mem_take hp)
  simp only [Question.same, Bool.and_eq_true] at hs
  rw [Ty.rank_same hps hpt hs.1.2 hs.2] at hle
  exact absurd hq (not_lt.mpr hle)

/-- The state in which a question is worked on. -/
abbrev CheckState.began (st : CheckState σ) (q : Question) : CheckState σ :=
  { st with memo := st.memo.start q }

theorem CheckState.Above.began {q : Question} (hi : st.Above Rec world n) (hs : q.source.Proper)
    (ht : q.target.Proper) (hq : Ty.rank q.source q.target < n) :
    (st.began q).Above Rec world (Ty.rank q.source q.target) := by
  refine ⟨hi.world, rfl, fun p hp => ?_, hi.records⟩
  rcases List.mem_cons.mp hp with rfl | hp
  · exact ⟨hs, ht, le_rfl⟩
  · obtain ⟨hps, hpt, hle⟩ := hi.pending p hp
    exact ⟨hps, hpt, hq.le.trans hle⟩

/-- A question is answered if it can be worked on with only questions of its rank under way, and
so that the verdict can go on record. -/
theorem descent_remember {keep : Bool} {q : Question} {work : Nat → CheckM σ Verdict}
    {Post : Verdict → Prop} (hi : st.Above Rec world n) (hq : Ty.rank q.source q.target < n)
    (hknown : ∀ v, st.memo.verdict? q = some v → Post v)
    (hrec : keep = true → ∀ v, Post v → Rec (q, v))
    (hwork : (descentFrame Err Rec world (Ty.rank q.source q.target)).Gives work (st.began q)
      fun v _ => Post v) :
    (descentFrame Err Rec world n).Gives (fun d => remember keep q (work d)) st
      fun v _ => Post v := by
  apply settles_remember
  · exact fun v hv => ⟨⟨hi.world, hi.lowest, hi.pending, hi.records⟩, rfl, hknown v hv⟩
  · intro d hd
    rw [hi.depth?_eq_none hq] at hd
    cases hd
  · intro _
    apply Settles.imp hwork
    rintro v st' ⟨hi', -, hv⟩
    have hrely : Memo.reliesOutside st.memo st'.memo = false := by
      simp [Memo.reliesOutside, hi'.lowest]
    refine ⟨⟨hi'.world, ?_, hi.pending, fun e he => ?_⟩, rfl, hv⟩
    · simp [Memo.settle, hrely, hi.lowest]
    · simp only [Memo.settle] at he
      split at he
      · rename_i hkeep
        rw [Bool.and_eq_true] at hkeep
        rcases List.mem_cons.mp he with rfl | he
        · exact hrec hkeep.1 v hv
        · exact hi'.records e he
      · exact hi'.records e he

/-- Questions of a lower rank are answered, as long as only higher ones are under way. -/
structure Answered (ctx : Surroundings σ) (φ : Features) (Rec : Question × Verdict → Prop)
    (world : σ) (n : ℕ ×ₗ ℕ) (Yes No : Ty → Ty → Prop) : Prop where
  judged : ∀ {st : CheckState σ} {a b : Ty}, st.Above Rec world n → Ty.Within φ a → Ty.Within φ b →
    Ty.rank a b < n → (descentFrame φ.Err Rec world n).Judges (fun d => check ctx d a b) st
      (fun _ => Yes a b) (No a b)

namespace Frame
variable {F : Frame (CheckState σ)} {ask : Nat → Ask σ} {Yes No : Ty → Ty → Prop}

/-- Questions about types below some height. -/
def inquiry (F : Frame (CheckState σ)) (ctx : Surroundings σ) (ask : Nat → Ask σ) (φ : Features)
    (H : Nat) (Yes No : Ty → Ty → Prop) : Inquiry ctx (.asIs ctx.variance) where
  toFrame := F
  ask := ask
  Turns _ t := Ty.Within φ t ∧ t.height < H
  Yes _ := Yes
  No := No
  turns_stable _ _ _ _ h := h
  yes_stable _ _ _ _ _ h := h
  child h hu := ⟨h.1.child hu, (Ty.height_le_of_child hu).trans_lt h.2⟩
  callable h := by
    rcases h with h | h
    · exact h.1.here.shaped.1
    · exact h.1.here.shaped.1
  variance := rfl

theorem inquiry_taken (ht : Ty.Within φ t) (hb : t.isBlend = false) (hH : t.height ≤ H) :
    (F.inquiry ctx ask φ H Yes No).Taken st t where
  child _ hu := ⟨ht.child hu, (Ty.height_lt_of_child hu hb).trans_le hH⟩
  callable he := by
    rcases he with rfl | rfl
    · exact ht.here.shaped.1
    · exact ht.here.shaped.1

theorem inquiry_open (hunwrap : ∀ {t : Ty}, (∀ n, t ≠ .ref n) → ctx.unwrap t = pure t)
    (hφ : φ.Bare)
    (hjudged : ∀ {st : CheckState σ} {a b : Ty}, F.Inv st → Ty.Within φ a ∧ a.height < H →
      Ty.Within φ b ∧ b.height < H →
      F.Judges (fun d => ask d a b) st (fun _ => Yes a b) (No a b)) (st : CheckState σ) :
    (F.inquiry ctx ask φ H Yes No).Open st where
  judged hi _ ha hb := hjudged hi ha hb
  element {st' u} hi _ hu := by
    have hany : Ty.Within φ Ty.any ∧ Ty.any.height < H :=
      ⟨Ty.within_prim _, by rw [Ty.height_prim]; exact Nat.zero_lt_of_lt hu.2⟩
    have hresolve := Surroundings.resolve_eq (hunwrap (hφ.not_ref hu.1))
    simp only [Rule.elementOf, hresolve, pure_bind]
    cases u with
    | array e =>
      exact gives_pure hi ⟨Inquiry.child _ hu (List.mem_singleton_self e), id, id, id, id⟩
    | _ => exact gives_pure hi ⟨hany, id, id, id, id⟩

end Frame

/-- By how much a type fails to be below some height. -/
def Ty.excess (H : Nat) (t : Ty) : Nat := t.height + 1 - H

theorem Ty.excess_eq_zero : t.excess H = 0 ↔ t.height < H := by
  unfold excess
  omega

theorem Ty.excess_child {u : Ty} (hu : u ∈ t.children) (hb : t.isBlend = false)
    (hH : t.height ≤ H) : u.excess H = 0 :=
  excess_eq_zero.mpr ((height_lt_of_child hu hb).trans_le hH)

theorem Ty.excess_join {ts : List Ty} (hne : ts ≠ []) :
    (join ts).excess H ≤ (ts.map (excess H)).sum := by
  have hle : ∀ t ∈ ts, t.height + 1 ≤ (ts.map (excess H)).sum + H := by
    intro t ht
    have := List.le_sum_of_mem (List.mem_map.mpr ⟨t, ht, rfl⟩ : t.excess H ∈ ts.map (excess H))
    unfold excess at this ⊢
    omega
  obtain ⟨t, ht⟩ := List.exists_mem_of_ne_nil ts hne
  have hjoin : (join ts).height ≤ (ts.map (excess H)).sum + H - 1 := by
    apply height_join
    intro t ht
    have := hle t ht
    omega
  have := hle t ht
  unfold excess at hjoin this ⊢
  omega

theorem Ty.excess_meet (a b : Ty) : (meet [a, b]).excess H ≤ a.excess H + b.excess H := by
  have hmeet : (meet [a, b]).height ≤ a.excess H + b.excess H + H - 1 := by
    apply height_meet
    unfold excess
    simp only [List.mem_cons, List.not_mem_nil, or_false, forall_eq_or_imp, forall_eq]
    omega
  unfold excess at hmeet ⊢
  omega

/-- A type without references up to some height. -/
def Ty.Reach (φ : Features) (H : Nat) (t : Ty) : Prop := Ty.Within φ t ∧ t.height ≤ H

namespace Ty.Reach

theorem never (t : Ty) : Ty.Reach φ H Ty.never ∧ Ty.never.excess H ≤ t.excess H := by
  have hzero : Ty.never.height = 0 := Ty.height_prim .never
  refine ⟨⟨Ty.within_prim _, by omega⟩, ?_⟩
  unfold Ty.excess
  omega

theorem join {ts : List Ty} (hne : ts ≠ []) (h : ∀ t ∈ ts, Ty.Reach φ H t) :
    Ty.Reach φ H (Ty.join ts) ∧ (Ty.join ts).excess H ≤ (ts.map (Ty.excess H)).sum :=
  ⟨⟨Ty.within_join fun t ht => (h t ht).1, Ty.height_join fun t ht => (h t ht).2⟩,
    Ty.excess_join hne⟩

theorem meet {a b : Ty} (hi : φ.inter) (ha : Ty.Reach φ H a) (hb : Ty.Reach φ H b) :
    Ty.Reach φ H (Ty.meet [a, b]) ∧ (Ty.meet [a, b]).excess H ≤ a.excess H + b.excess H := by
  have hab : ∀ t ∈ [a, b], Ty.Reach φ H t := by simpa using ⟨ha, hb⟩
  exact ⟨⟨Ty.within_meet hi fun t ht => (hab t ht).1, Ty.height_meet fun t ht => (hab t ht).2⟩,
    Ty.excess_meet a b⟩

/-- What an object is made of is below it. -/
theorem excess_fields {fs : List (Field Ty)} {i : Option (Index Ty)} {n : Option String}
    (h : Ty.Reach φ H (.object fs i n)) : Field.total (Ty.excess H) fs ≤ 0 := by
  apply Nat.le_of_eq
  apply List.sum_eq_zero
  intro x hx
  obtain ⟨f, hf, rfl⟩ := List.mem_map.mp hx
  exact Ty.excess_child (Ty.field_mem_children hf) rfl h.2

theorem excess_index {fs : List (Field Ty)} {i : Index Ty} {n : Option String}
    (h : Ty.Reach φ H (.object fs (some i) n)) : i.value.excess H ≤ 0 :=
  Nat.le_of_eq (Ty.excess_child (Ty.value_mem_children rfl) rfl h.2)

theorem resolve (ht : Ty.Reach φ H t) (hc : ctx.Level) (hφ : φ.Bare) (hi : st.Above Rec world n) :
    (descentFrame φ.Err Rec world n).Gives (fun _ => ctx.resolve t) st fun t' _ =>
      Ty.Reach φ H t' := by
  rw [hc.resolve hφ ht.1]
  exact Frame.gives_pure hi ht

end Ty.Reach

theorem sum_map_zero (ms : List Ty) : (ms.map fun _ => 0).sum ≤ 0 := by simp

/-- Combining types up to some height. Only those below it are asked about. -/
def descentLedger (hc : ctx.Level) (hφ : φ.Bare) (Rec : Question × Verdict → Prop) (world : σ)
    (n : ℕ ×ₗ ℕ) (H : Nat) : Ledger ctx where
  toFrame := descentFrame φ.Err Rec world n
  ask := check ctx
  depth := id
  In _ := Ty.Reach φ H
  Name _ _ := True
  Inters := φ.inter
  Indexes := φ.index
  cost := Ty.excess H
  fields _ := 0
  index _ := 0
  in_stable _ _ _ _ h := h
  name_stable _ _ _ _ h := h
  child h hu := ⟨h.1.child hu, (Ty.height_le_of_child hu).trans h.2⟩
  apart h := ⟨h.1.here.shaped, fun _ _ => trivial⟩
  inters h := h.1.here.inter rfl
  indexes h := h.1.here.index rfl
  never {_ t} _ := Ty.Reach.never t
  join := Ty.Reach.join
  meet hi ha hb _ _ := Ty.Reach.meet hi ha hb
  fields_object := Ty.Reach.excess_fields
  fields_union := sum_map_zero
  fields_inter := sum_map_zero
  index_object := Ty.Reach.excess_index
  index_inter _ := le_rfl
  unwrap h := hc.unwrap h
  resolve hi ht := ht.resolve hc hφ hi

section
variable {hc : ctx.Level} {hφ : φ.Bare} {ms : List Ty}

theorem descent_found (ha : (descentLedger hc hφ Rec world n H).Answers 0 st) (ht : Ty.Within φ t)
    (k : Nat) : (descentLedger hc hφ Rec world n H).Found st k t := by
  refine Ledger.found_of_refs (Q := Ty.Within φ) (fun us h u hu => ?_) (fun m _ h => ?_) ha ht
    le_rfl
    ⟨t.size + k, fun _ => id⟩
  · rcases h with h | h
    · exact h.child hu
    · exact h.child hu
  · exact (hφ.not_ref h m rfl).elim

/-- Fields collected from types up to some height are below it. -/
theorem Ledger.Holds.height_lt {fs : List (Field Ty)}
    (h : (descentLedger hc hφ Rec world n H).Holds st 0 fs) : ∀ f ∈ fs, f.type.height < H := by
  intro f hf
  have hle := (Field.cost_le_total (Ty.excess H) hf).trans h.cost
  exact Ty.excess_eq_zero.mp (Nat.le_zero.mp hle)

theorem Ledger.Holds.within {fs : List (Field Ty)} {k : Nat}
    (h : (descentLedger hc hφ Rec world n H).Holds st k fs) : ∀ f ∈ fs, Ty.Within φ f.type :=
  fun f hf => (h.type f hf).1

/-- An intersection is combined into an object that is no higher. -/
theorem descent_combinedObject (ha : (descentLedger hc hφ Rec world n H).Answers 0 st)
    (hi : st.Above Rec world n) (hs : Ty.Within φ (.inter ms))
    (hH : (Ty.inter ms).height ≤ H) :
    (descentFrame φ.Err Rec world n).Gives
      (fun d => Member.combinedObject ctx (check ctx d) d (.inter ms)) st fun r _ =>
        ∀ shape, r = some shape → Ty.Within φ shape ∧ shape.height ≤ H ∧
          ∃ fs i, shape = .object fs i none := by
  have hx : φ.inter := hs.here.inter rfl
  refine (Ledger.gives_combinedObject (L := descentLedger hc hφ Rec world n H) ha hi ⟨hs, hH⟩
    (descent_found ha hs 0) le_rfl ?_).imp ?_
  · intro st' fs i _ _ hf hj
    rw [hc.objectOf]
    have hout := Ty.objectOf_outcome none hf.apart
      (fun f hm => (hf.within f hm).orderly) fun j he => (hj j he).2.1.1.orderly
    refine hout.imp_right ?_
    rintro ⟨e, he, hm, hne⟩
    obtain ⟨j, rfl⟩ := Option.ne_none_iff_exists'.mp hne
    exact ⟨e, he, .inr ⟨hm, hx, (hj j rfl).1⟩⟩
  · rintro r st' - - h shape he
    obtain ⟨fs, i, rfl, hf, hj⟩ := h shape he
    refine ⟨Ty.within_object hf.apart hf.within fun j he => ⟨(hj j he).1, (hj j he).2.1.1⟩, ?_,
      fs, i, rfl⟩
    apply Ty.height_object hf.height_lt
    intro j he
    exact Ty.excess_eq_zero.mp (Nat.le_zero.mp (hj j he).2.2)

end

section
variable {Yes No : Ty → Ty → Prop} {ms : List Ty}

namespace Answered

theorem inquiry_open (h : Answered ctx φ Rec world (Ty.rank s t) Yes No) (hc : ctx.Level)
    (hφ : φ.Bare) (st : CheckState σ) :
    ((descentFrame φ.Err Rec world (Ty.rank s t)).inquiry ctx (check ctx) φ
      (max s.height t.height) Yes No).Open st :=
  Frame.inquiry_open hc.unwrap hφ
    (fun hi ha hb => h.judged hi ha.1 hb.1 (Ty.rank_lt_of_height ha.2 hb.2)) st

theorem fromUnion (h : Answered ctx φ Rec world (Ty.rank (.union ms) t) Yes No)
    (hi : st.Above Rec world (Ty.rank (.union ms) t)) (hs : Ty.Within φ (.union ms))
    (ht : Ty.Within φ t) :
    (descentFrame φ.Err Rec world (Ty.rank (.union ms) t)).Judges
      (fun d => Rule.structural ctx (check ctx d) d (.union ms) t) st
      (fun _ => ∀ m ∈ ms, Yes m t) (∃ m ∈ ms, No m t) :=
  Frame.judges_fromUnion (fun _ _ _ _ => id) hi fun _ hm _ hi' _ =>
    h.judged hi' (hs.child hm) ht (Ty.rank_lt_left t rfl hm)

theorem toInter (h : Answered ctx φ Rec world (Ty.rank s (.inter ms)) Yes No)
    (hi : st.Above Rec world (Ty.rank s (.inter ms))) (hs : Ty.Within φ s)
    (ht : Ty.Within φ (.inter ms)) (hu : ∀ us, s ≠ .union us) :
    (descentFrame φ.Err Rec world (Ty.rank s (.inter ms))).Judges
      (fun d => Rule.structural ctx (check ctx d) d s (.inter ms)) st
      (fun _ => ∀ m ∈ ms, Yes s m) (∃ m ∈ ms, No s m) := by
  simp only [Inquiry.structural_toInter hu]
  exact Frame.judges_firstMisfit ms (fun _ _ _ _ => id) hi fun m hm st' hi' _ =>
    h.judged hi' hs (ht.child hm) (Ty.rank_lt_right s rfl hm)

theorem toUnion (h : Answered ctx φ Rec world (Ty.rank s (.union ms)) Yes No)
    (hi : st.Above Rec world (Ty.rank s (.union ms))) (hs : Ty.Within φ s)
    (ht : Ty.Within φ (.union ms)) (hu : ∀ us, s ≠ .union us) :
    (descentFrame φ.Err Rec world (Ty.rank s (.union ms))).Judges
      (fun d => Rule.structural ctx (check ctx d) d s (.union ms)) st
      (fun _ => ∃ m ∈ ms, Yes s m) (∀ m ∈ ms, No s m) := by
  simp only [Inquiry.structural_toUnion hu]
  exact Frame.judges_someFits hi fun m hm st' hi' _ =>
    h.judged hi' hs (ht.child hm) (Ty.rank_lt_right s rfl hm)

theorem fromSome (h : Answered ctx φ Rec world (Ty.rank (.inter ms) t) Yes No)
    (hi : st.Above Rec world (Ty.rank (.inter ms) t)) (hs : Ty.Within φ (.inter ms))
    (ht : Ty.Within φ t) :
    (descentFrame φ.Err Rec world (Ty.rank (.inter ms) t)).Judges
      (fun d => Rule.fromSome (check ctx d) (.inter ms) ms t) st
      (fun _ => ∃ m ∈ ms, Yes m t) (∀ m ∈ ms, No m t) :=
  Frame.judges_someFits hi fun _ hm _ hi' _ =>
    h.judged hi' (hs.child hm) ht (Ty.rank_lt_left t rfl hm)

/-- Questions below the source are answered. -/
theorem answers (h : Answered ctx φ Rec world (Ty.rank s t) Yes No) (hc : ctx.Level) (hφ : φ.Bare)
    (st : CheckState σ) :
    (descentLedger hc hφ Rec world (Ty.rank s t) s.height).Answers 0 st := by
  intro st' a b hi' _ ha hb hcost
  have hab : a.excess s.height + b.excess s.height ≤ 0 := hcost
  apply (h.judged hi' ha.1 hb.1 (Ty.rank_lt_of_height _ _)).gives
  · exact lt_max_of_lt_left (Ty.excess_eq_zero.mp (by omega))
  · exact lt_max_of_lt_left (Ty.excess_eq_zero.mp (by omega))

/-- An intersection is combined into an object that is no higher, and so nearer to the end. -/
theorem combinedObject (h : Answered ctx φ Rec world (Ty.rank (.inter ms) t) Yes No)
    (hc : ctx.Level) (hφ : φ.Bare) (hi : st.Above Rec world (Ty.rank (.inter ms) t))
    (hs : Ty.Within φ (.inter ms)) :
    (descentFrame φ.Err Rec world (Ty.rank (.inter ms) t)).Gives
      (fun d => Member.combinedObject ctx (check ctx d) d (.inter ms)) st fun r _ =>
        ∀ shape, r = some shape → Ty.Within φ shape ∧ Ty.rank shape t < Ty.rank (.inter ms) t := by
  apply (descent_combinedObject (h.answers hc hφ st) hi hs le_rfl).imp
  intro r _ _ _ hr shape he
  obtain ⟨hshape, hle, fs, i, rfl⟩ := hr shape he
  have hnest : (Ty.object fs i none).nest < (Ty.inter ms).nest := by
    rw [Ty.nest_of_not_blend rfl]
    exact Ty.nest_pos rfl
  exact ⟨hshape, Ty.rank_lt_of_nest hle le_rfl (Nat.add_lt_add_right hnest _)⟩

/-- Where neither type is a union or an intersection, their parts are compared. -/
theorem plain (h : Answered ctx φ Rec world (Ty.rank s t) Yes No) (hc : ctx.Level) (hφ : φ.Bare)
    (hi : st.Above Rec world (Ty.rank s t)) (hs : Ty.Within φ s) (ht : Ty.Within φ t)
    (hu : Inquiry.Undecided s t) (hsb : s.isBlend = false) (htb : t.isBlend = false) :
    (descentFrame φ.Err Rec world (Ty.rank s t)).Judges
      (fun d => Rule.structural ctx (check ctx d) d s t) st
      (fun _ => (Reading.asIs ctx.variance).FitsBy Yes s t)
      (¬(Reading.asIs ctx.variance).FitsBy (fun a b => ¬No a b) s t) := by
  have hnot : ∀ {u : Ty}, u.isBlend = false → (∀ us, u ≠ .union us) ∧ ∀ us, u ≠ .inter us := by
    intro u hb
    constructor <;> rintro us rfl <;> cases hb
  simp only [Inquiry.structural_plain (hnot hsb).1 (hnot htb).2 (hnot htb).1]
  exact (h.inquiry_open hc hφ st).plain hi (Frame.inquiry_taken hs hsb (le_max_left _ _))
    (Frame.inquiry_taken ht htb (le_max_right _ _)) hu (hnot hsb).1 (hnot hsb).2 (hnot htb).1 id

theorem structural (h : Answered ctx φ Rec world (Ty.rank s t) Yes No) (hc : ctx.Level)
    (hφ : φ.Bare) (hi : st.Above Rec world (Ty.rank s t)) (hs : Ty.Within φ s) (ht : Ty.Within φ t)
    (hu : Inquiry.Undecided s t) :
    (descentFrame φ.Err Rec world (Ty.rank s t)).Gives
      (fun d => Rule.structural ctx (check ctx d) d s t) st fun _ _ => True := by
  by_cases hsu : ∃ ms, s = .union ms
  · obtain ⟨ms, rfl⟩ := hsu
    exact (h.fromUnion hi hs ht).gives
  have hsu' : ∀ ms, s ≠ .union ms := fun ms he => hsu ⟨ms, he⟩
  by_cases htb : t.isBlend
  · cases t with
    | union ms => exact (h.toUnion hi hs ht hsu').gives
    | inter ms => exact (h.toInter hi hs ht hsu').gives
    | _ => cases htb
  have htb' : t.isBlend = false := by simpa using htb
  by_cases hsi : ∃ ms, s = .inter ms
  · obtain ⟨ms, rfl⟩ := hsi
    cases t with
    | object gs wanted name =>
      refine (h.combinedObject hc hφ hi hs).bind fun r st' hi' _ hr => ?_
      cases r with
      | none => exact (h.fromSome hi' hs ht).gives
      | some shape =>
        obtain ⟨hshape, hrank⟩ := hr shape rfl
        refine (h.judged hi' hshape ht hrank).bind ?_ ?_
        · exact fun st'' hi'' _ _ => Frame.gives_pure hi'' trivial
        · exact fun m st'' hi'' _ _ => Frame.gives_pure hi'' trivial
    | union us => cases htb'
    | inter us => cases htb'
    | _ => exact (h.fromSome hi hs ht).gives
  · have hsb : s.isBlend = false := by
      cases s with
      | union ms => exact (hsu' ms rfl).elim
      | inter ms => exact (hsi ⟨ms, rfl⟩).elim
      | _ => rfl
    exact (h.plain hc hφ hi hs ht hu hsb htb').gives

end Answered
end

/-- Every check of types without references comes to an end, with nothing assumed on the way. -/
theorem descent_check (hc : ctx.Level) (hφ : φ.Bare) (hi : st.Above (fun _ => True) world n)
    (hs : Ty.Within φ s) (ht : Ty.Within φ t) (hr : Ty.rank s t < n) :
    (descentFrame φ.Err (fun _ => True) world n).Gives (fun d => check ctx d s t) st
      fun _ _ => True := by
  induction hk : Ty.rank s t using WellFoundedLT.induction generalizing n st s t with
  | _ k ih =>
    subst hk
    suffices h : (descentFrame φ.Err (fun _ => True) world n).Gives
        (fun d => Rule.answer ctx (check ctx d) d s t) st fun _ _ => True from
      Settles.succ (fun _ => rfl) h
    simp only [Rule.answer, hc.resolve hφ hs, hc.resolve hφ ht, pure_bind]
    cases himm : Rule.immediate s t with
    | some v => exact Frame.gives_pure hi trivial
    | none =>
      have hlower : Answered ctx φ (fun _ => True) world (Ty.rank s t) (fun _ _ => True)
          fun _ _ => True :=
        ⟨fun hi' ha hb hab => (ih _ hab hi' ha hb hab rfl).imp fun _ _ _ _ _ =>
          ⟨fun _ => trivial, fun _ => trivial⟩⟩
      apply descent_remember (q := ⟨s, t⟩) hi hr (fun _ _ => trivial) fun _ _ _ => trivial
      exact hlower.structural hc hφ (hi.began (q := ⟨s, t⟩) hs.proper ht.proper hr) hs ht
        (Inquiry.undecided_of_immediate himm)

end ShapeCheck

import ShapeCheck.Proofs.Fit.Built
import ShapeCheck.Proofs.Fit.Canonical
import ShapeCheck.Proofs.Fit.History
import ShapeCheck.Proofs.Fit.Retain

/-! Whether an intersection fits a type that it was made of: it does exactly if it keeps all that
the type comes down to. Verdicts on record stand in the way of that only where two questions are
equal and yet have different answers. -/

namespace ShapeCheck
variable {σ : Type} {ctx : Surroundings σ} {variance : Variance} {world : σ}
  {s t : Ty} {ms ts : List Ty}

/-- The answer of a fresh checker to a single question. -/
theorem freshAnswers_of_comesTo {v : Verdict} {st : CheckState σ}
    (h : ComesTo (fun d => check ctx d s t) ⟨Memo.empty, world⟩ v st) :
    ∃ bound, ∀ depth, bound ≤ depth →
      freshAnswers ctx depth world [⟨s, t⟩] = .ok [v.isNone] := by
  obtain ⟨bound, hrun⟩ := h
  refine ⟨bound, fun depth hd => ?_⟩
  unfold freshAnswers answers
  rw [run_bind, hrun depth hd]
  rfl

/-- A fresh checker answers by assignability, if objects can be built and equal questions have the
same answer as far as verdicts are kept. -/
theorem freshAnswers_iff_fits (hc : ctx.Level) (hs : Ty.Within .unnamed s)
    (ht : Ty.Within .unnamed t)
    (hR : ctx.memoize = true →
      Ty.EqualAnswers (Ty.Asked ctx.variance s t) (Ty.Fits ctx.variance))
    (hbuild : ∀ {ms : List Ty} {u : Ty} {fs : List (Field Ty)} {i : Option (Index Ty)},
      Ty.Asked ctx.variance s t (.inter ms) u → u.IsObject →
      Ty.combinedBy (Ty.Fits ctx.variance) (.inter ms) = some (.object fs i none) →
      Ty.objectOf fs i none = .ok (.object fs i none)) (world : σ) :
    ∃ b, (∃ bound, ∀ depth, bound ≤ depth →
      freshAnswers ctx depth world [⟨s, t⟩] = .ok [b]) ∧ (b = true ↔ Ty.Fits ctx.variance s t) := by
  obtain ⟨n, hn⟩ := exists_gt (Ty.rank s t)
  have hdecides := check_decides hc (Ty.questions_asked hs ht) hR hbuild (fresh_above _ world n)
    .here hn
  have hends := descent_check (φ := .unnamed) hc ⟨fun _ => rfl⟩ (fresh_above _ world n) hs ht hn
  obtain ⟨v, st, ⟨-, -, hyes, hno⟩, hrun⟩ := Settles.exists_comesTo hdecides hends
    fun e he herr => herr.ne_depthExceeded he
  refine ⟨v.isNone, freshAnswers_of_comesTo hrun, ?_⟩
  cases v with
  | none => exact iff_of_true rfl (hyes rfl)
  | some m => exact iff_of_false (by simp) (hno (by simp))

theorem Ty.objectOf_of_unindexed {fs : List (Field Ty)} {i : Option (Index Ty)}
    (h : Ty.Within .unindexed (.object fs i none)) :
    Ty.objectOf fs i none = .ok (.object fs i none) := by
  have houtcome := Ty.objectOf_outcome none h.here.shaped (fun f hf => (h.field f hf).orderly)
    fun j hj => (h.index j hj).2.orderly
  rcases houtcome with hok | ⟨_, _, _, hne⟩
  · exact hok
  · obtain ⟨j, hj⟩ := Option.ne_none_iff_exists'.mp hne
    exact (h.index j hj).1.elim

/-- What is settled at once is settled whatever is on record. -/
theorem comesTo_of_immediate {φ : Features} (hc : ctx.Level) (hφ : φ.Bare) (hs : Ty.Within φ s)
    (ht : Ty.Within φ t) (h : Rule.immediate s t = some none) (st : CheckState σ) :
    ComesTo (fun d => check ctx d s t) st none st := by
  refine ⟨1, fun d hd => ?_⟩
  obtain ⟨d, rfl⟩ := Nat.exists_eq_add_of_le' hd
  have hcheck : check ctx (d + 1) s t = pure none := by
    change Rule.answer ctx (check ctx d) d s t = pure none
    simp only [Rule.answer, hc.resolve hφ hs, hc.resolve hφ ht, pure_bind, h]
  simp only [hcheck]
  rfl

/-- An intersection covers the types that it was made of, unless it fits them at once. -/
theorem Ty.coversLeaves_meet (hts : ∀ t ∈ ts, t.Proper) (ht : t ∈ ts)
    (hl : ∀ l, Ty.InterLeaf t l → l.NotUnionObjectOrNever) :
    Rule.immediate (Ty.meet ts) t = some none ∨ Ty.CoversLeaves (Ty.meet ts) t := by
  have hcover : ∀ l, Ty.InterLeaf t l →
      ∃ m ∈ Ty.remaining ts, ∃ k, Ty.InterLeaf m k ∧ k.StandsFor l :=
    fun l hleaf => hleaf.exists_remaining hts ht
  rcases Ty.meet_eq ts with he | ⟨hnever, he | ⟨m, hone, he⟩ | he⟩
  · exact .inl (by simp [he, Rule.immediate, Ty.isNever])
  · have hnot : t ≠ Ty.never := by
      rintro rfl
      exact (hl Ty.never (.self (by simp))).not_never rfl
    have hno : t.isNever = false := by simpa using mt Inquiry.isNever_iff.mp hnot
    exact .inl (by simp [he, Rule.immediate, hno, Ty.isAny])
  · refine .inr fun l hleaf => ⟨hl l hleaf, ?_⟩
    obtain ⟨q, hq, hstands⟩ := hcover l hleaf
    rw [hone, List.mem_singleton] at hq
    rwa [he, ← hq]
  · refine .inr fun l hleaf => ⟨hl l hleaf, ?_⟩
    obtain ⟨m, hm, k, hk, hkl⟩ := hcover l hleaf
    rw [he]
    exact ⟨k, .member ((Text.sortOn_perm Ty.spelling _).mem_iff.mpr hm) hk, hkl⟩

/-- An intersection fits a type that comes down to neither unions nor objects, whatever verdicts
are kept. -/
theorem freshAnswers_of_leaves (hc : ctx.Level) (hts : ∀ u ∈ ts, Ty.Within .unindexed u)
    (ht : t ∈ ts) (hl : ∀ l, Ty.InterLeaf t l → l.NotUnionObjectOrNever) (world : σ) :
    ∃ bound, ∀ depth, bound ≤ depth →
      freshAnswers ctx depth world [⟨Ty.meet ts, t⟩] = .ok [true] := by
  have hmeet : Ty.Within .unindexed (Ty.meet ts) := Ty.within_meet trivial hts
  have hbare : Features.unindexed.Bare := ⟨fun _ => rfl⟩
  rcases Ty.coversLeaves_meet (fun u hu => (hts u hu).proper) ht hl with himm | hcover
  · exact freshAnswers_of_comesTo (comesTo_of_immediate hc hbare hmeet (hts t ht) himm _)
  · obtain ⟨n, hn⟩ := exists_gt (Ty.rank (Ty.meet ts) t)
    have hgives := gives_coversLeaves hc hbare (fresh_above CoverRecord world n) hmeet (hts t ht) hn
    obtain ⟨v, st, ⟨-, -, hv⟩, hrun⟩ := Settles.exists_comesTo hgives hgives
      fun _ herr _ => Features.not_err_unindexed herr
    have hyes := freshAnswers_of_comesTo hrun
    rwa [hv hcover] at hyes

/-- A fresh checker answers whether an intersection fits a type that it was made of, and the answer
is yes exactly if the intersection keeps all that the type comes down to. Either no index occurs,
and then either verdicts are not kept or the type comes down to neither unions nor objects; or equal
questions that may come up have the same answer. -/
theorem meet_lower_bound_iff (variance : Variance) (memoize : Bool) (env : Env)
    (hts : ∀ u ∈ ts, Ty.Within .unnamed u) (ht : t ∈ ts)
    (h : (∀ u ∈ ts, Ty.Within .unindexed u) ∧
        (memoize = false ∨ ∀ l, Ty.InterLeaf t l → l.NotUnionObjectOrNever) ∨
      Ty.EqualAnswers (Ty.Asked variance (Ty.meet ts) t) (Ty.Fits variance)) :
    ∃ b, (∃ bound, ∀ depth, bound ≤ depth →
        freshAnswers (Env.surroundings variance memoize) depth env [⟨Ty.meet ts, t⟩] = .ok [b]) ∧
      (b = true ↔ ∀ ms, Ty.meet ts = .inter ms → (Ty.inter ms).same t = false →
        ∀ l, Ty.InterLeaf t l → Ty.Retains variance ms l) := by
  have hc := Env.surroundings_level variance memoize
  have hmeet : Ty.Within .unnamed (Ty.meet ts) := Ty.within_meet trivial hts
  rw [← Ty.fits_meet_iff hts ht]
  rcases h with ⟨hu, hm | hl⟩ | hR
  · have hP : Ty.ComparisonClosed (Ty.Fits variance) (Ty.Within .unindexed) :=
      Ty.closed_within ⟨fun _ => rfl⟩ trivial
    refine freshAnswers_iff_fits hc hmeet (hts t ht) (fun hkeep => ?_)
      (fun hasked _ hcombined => ?_) env
    · cases hm.symm.trans hkeep
    · obtain ⟨hinter, -⟩ := hasked.closed hP (Ty.within_meet trivial hu) (hu t ht)
      exact Ty.objectOf_of_unindexed (hP.combined hinter hcombined)
  · refine ⟨true, freshAnswers_of_leaves hc hu ht hl env, iff_of_true rfl ?_⟩
    exact (Ty.fits_meet_iff hts ht).mpr fun ms _ _ l hleaf => (hl l hleaf).retains
  · exact freshAnswers_iff_fits hc hmeet (hts t ht) (fun _ => hR)
      ((Ty.questions_asked hmeet (hts t ht)).objectOf_eq hR) env

namespace Sample
open Ty (Fits Agreeing)

def text : Ty := .prim .string

def number : Ty := .prim .number

def one : Ty := .literal (.number (.int 1))

/-- An object whose properties are all required. -/
def record (ps : List (String × Ty)) : Ty := .object (ps.map fun p => ⟨p.1, p.2, false⟩) none none

def pair : Ty := .inter [record [("x", text)], record [("y", number)]]

def left : Ty :=
  record [("id", number), ("p", pair), ("q", record [("u", text)]), ("r", number)]

def middle : Ty :=
  .object [⟨"id", number, false⟩, ⟨"p", pair, false⟩, ⟨"q", record [("v", number)], true⟩,
    ⟨"r", one, true⟩] none none

def right : Ty := .object [⟨"id", number, false⟩] (some ⟨.string, Ty.any⟩) none

theorem within (h : ∀ u ∈ ts, Ty.holdsWithin Ty.WellShaped 5 u ∧
    Ty.holdsWithin (Ty.isRef · = false) 5 u) : ∀ u ∈ ts, Ty.Within .unnamed u := fun u hu =>
  Ty.within_unnamed (Ty.everywhere_of_holdsWithin (h u hu).1)
    (Ty.everywhere_of_holdsWithin (h u hu).2)

theorem meet_eq : Ty.meet [left, middle, right] = .inter [right, left, middle] := rfl

/-- Objects that do not fit each other are merged into their intersection. -/
theorem agreeing_objects :
    Agreeing (Fits .contravariant) [record [("u", text)], record [("v", number)]] := by
  have hts : ∀ u ∈ [record [("u", text)], record [("v", number)]], Ty.Within .unnamed u :=
    within (by decide)
  have hu := hts (record [("u", text)]) (by simp)
  have hv := hts (record [("v", number)]) (by simp)
  have huv : ¬Fits .contravariant (record [("u", text)]) (record [("v", number)]) := by
    intro hfits
    have := (Ty.fits_unindexed_iff hu hv).mp hfits
    simp [Reading.FieldFits, Field.find?] at this
  have hvu : ¬Fits .contravariant (record [("v", number)]) (record [("u", text)]) := by
    intro hfits
    have := (Ty.fits_unindexed_iff hv hu).mp hfits
    simp [Reading.FieldFits, Field.find?] at this
  have heq : Ty.meet [record [("u", text)], record [("v", number)]] =
      .inter [record [("u", text)], record [("v", number)]] := rfl
  refine Agreeing.meet (List.cons_ne_nil _ []) huv hvu rfl fun u hu =>
    (Ty.fits_meet_iff hts hu).mpr fun ms he _ l hl => ?_
  have hms : Ty.Within .unnamed (.inter ms) := he ▸ Ty.within_meet trivial hts
  cases heq.symm.trans he
  rcases List.mem_pair.mp hu with rfl | rfl
  · rw [hl.eq_self (by simp [record])]
    refine Ty.retains_of_agreeing hms (List.mem_cons_self ..) fun g hg => ?_
    cases List.mem_singleton.mp hg
    exact .one text
  · rw [hl.eq_self (by simp [record])]
    have hmem : record [("v", number)] ∈ [record [("u", text)], record [("v", number)]] := by simp
    refine Ty.retains_of_agreeing hms hmem fun g hg => ?_
    cases List.mem_singleton.mp hg
    exact .one number

/-- A type that has been merged makes way for a narrower one. -/
theorem agreeing_scalars : Agreeing (Fits .contravariant) [number, one] := by
  have hone : Fits .contravariant one number :=
    Ty.fits_of_immediate (Ty.within_literal _) (Ty.within_prim _) rfl
  have hno : ¬Fits .contravariant number one :=
    Ty.not_fits_of_immediate (Ty.within_prim _) (Ty.within_literal _) rfl
  exact Agreeing.narrower (List.cons_ne_nil number []) hno hone (by simpa using hone)

theorem within_members : ∀ u ∈ [left, middle, right], Ty.Within .unnamed u := within (by decide)

theorem within_meet : Ty.Within .unnamed (.inter [right, left, middle]) :=
  Ty.within_meet trivial within_members

theorem agreeing_equal (h : Ty.Within .unnamed t) (n : Nat) :
    Agreeing (Fits .contravariant) (List.replicate (n + 1) t) :=
  (Ty.agreeing_replicate (Ty.fits_refl h) n).1

theorem retains_left : Ty.Retains .contravariant [right, left, middle] left := by
  have hpair : Ty.Within .unnamed pair := within (by decide) pair (List.mem_singleton_self _)
  refine Ty.retains_of_agreeing within_meet (by simp [left, record]) fun g hg => ?_
  simp only [List.map_cons, List.map_nil, List.mem_cons, List.not_mem_nil, or_false] at hg
  rcases hg with rfl | rfl | rfl | rfl
  · exact agreeing_equal (Ty.within_prim _) 2
  · exact agreeing_equal hpair 1
  · exact agreeing_objects
  · exact agreeing_scalars

theorem retains_right : Ty.Retains .contravariant [right, left, middle] right := by
  have hid : Fits .contravariant
      (Ty.mergedType (Fits .contravariant) [right, left, middle] "id") number := by
    rw [show Ty.mergedType (Fits .contravariant) [right, left, middle] "id" = number from
      (Ty.agreeing_replicate (Ty.fits_refl (Ty.within_prim _)) 2).2]
    exact Ty.fits_refl (Ty.within_prim _)
  have hany : ∀ u : Ty, Fits .contravariant u Ty.any := fun u => by
    rw [Fits]
    exact .rule (.toAny u)
  refine .inl ⟨fun g hg => ?_, fun i hi k _ => ?_, fun i o hi _ _ => ?_⟩
  · cases List.mem_singleton.mp hg
    exact hid
  · cases hi
    exact hany _
  · cases hi
    exact hany _

def optional : Ty := .object [⟨"a", number, true⟩] none none

/-- Three types of one property: the first one fits the second one, and the third one fits the first
one only. -/
def lost : List Ty :=
  [record [("a", text), ("p", record [])], record [("b", text), ("p", optional)],
    record [("c", text), ("p", record [("a", text)])]]

theorem mergedType_lost :
    Ty.mergedType (Fits .contravariant) lost "p" = record [("a", text)] := by
  have hw : ∀ u ∈ [record [], optional, record [("a", text)]], Ty.Within .unnamed u :=
    within (by decide)
  have hempty := hw (record []) (by simp)
  have hoptional := hw optional (by simp)
  have hrequired := hw (record [("a", text)]) (by simp)
  have hwider : Fits .contravariant (record []) optional :=
    (Ty.fits_unindexed_iff hempty hoptional).mpr (by simp [Reading.FieldFits, Field.find?])
  have hno : ¬Fits .contravariant (record []) (record [("a", text)]) := by
    intro hfits
    have := (Ty.fits_unindexed_iff hempty hrequired).mp hfits
    simp [Reading.FieldFits, Field.find?] at this
  have hnarrower : Fits .contravariant (record [("a", text)]) (record []) :=
    (Ty.fits_unindexed_iff hrequired hempty).mpr (by simp)
  have hdeclared : Ty.declared (Fits .contravariant) lost "p" =
      [record [], optional, record [("a", text)]] := rfl
  rw [Ty.mergedType, hdeclared]
  simp [Ty.narrowest, Ty.narrower, hwider, hno, hnarrower]

theorem not_retains_lost :
    ¬Ty.Retains .contravariant lost (record [("b", text), ("p", optional)]) := by
  have hlost : Ty.Within .unnamed (.inter lost) := within (by decide) _ (List.mem_singleton_self _)
  rintro (h | ⟨shape, hc, hsame⟩)
  · have hw : ∀ u ∈ [record [("a", text)], optional], Ty.Within .unnamed u := within (by decide)
    have hfits := h.property ⟨"p", optional, false⟩ (by simp)
    rw [mergedType_lost] at hfits
    have hfield := (Ty.fits_unindexed_iff (hw (record [("a", text)]) (by simp))
      (hw optional (by simp))).mp hfits ⟨"a", number, true⟩ (by simp)
    exact Ty.not_fits_of_immediate (Ty.within_prim _) (Ty.within_prim _) rfl hfield.2
  · -- the combined object has a property that the target does not have
    obtain ⟨fs, i, rfl, ho, -, -⟩ := Ty.closed_unnamed.of_combinedBy hlost hc
    obtain ⟨_, _, _, he, hfs, -⟩ := Ty.same_object_iff.mp hsame
    cases he
    rcases Ty.closed_unnamed.find?_merged hlost ho "a" with ⟨hnil, -⟩ | ⟨f, hf, -⟩
    · cases hnil
    · obtain ⟨g, hg, hfg⟩ := forall₂_mem_left hfs (Field.mem_of_find? hf)
      have hname : g.name = "a" := hfg.name.symm.trans (Field.find?_eq_some hf).2
      simp only [List.map_cons, List.map_nil, List.mem_cons, List.not_mem_nil, or_false] at hg
      rcases hg with rfl | rfl
      · simp at hname
      · simp at hname

end Sample

open Sample in
/-- Members that agree, with a property that all three of them have, intersections in two of them
and an index; a member that is an array; and a property whose types do not agree. -/
theorem meet_lower_bound_shared :
    Ty.Canonical [left, middle, right] ∧
    (∀ t ∈ [left, right], ∃ bound, ∀ depth, bound ≤ depth →
      freshAnswers (Env.surroundings .contravariant true) depth parity
        [⟨Ty.meet [left, middle, right], t⟩] = .ok [true]) ∧
    (∃ bound, ∀ depth, bound ≤ depth →
      freshAnswers (Env.surroundings .contravariant true) depth parity
        [⟨Ty.meet [left, .array pair], .array pair⟩] = .ok [true]) ∧
    ∃ bound, ∀ depth, bound ≤ depth →
      freshAnswers (Env.surroundings .contravariant false) depth parity
        [⟨Ty.meet lost, record [("b", text), ("p", optional)]⟩] = .ok [false] := by
  have hunindexed : ∀ u ∈ [left, .array pair] ++ lost, Ty.Within .unindexed u := fun u hu =>
    (within (by decide) u hu).unindexed (Ty.everywhere_of_holdsWithin
      ((by decide : ∀ u ∈ [left, .array pair] ++ lost,
        Ty.holdsWithin (·.index? = none) 5 u) u hu))
  obtain ⟨harray, hlost⟩ := List.forall_mem_append.mp hunindexed
  have hcanonical : Ty.Canonical [left, middle, right] := by decide +kernel
  refine ⟨hcanonical, fun t ht => ?_, ?_, ?_⟩
  · have hmem : t ∈ [left, middle, right] := by
      rcases List.mem_pair.mp ht with rfl | rfl <;> simp
    obtain ⟨b, hrun, hb⟩ := meet_lower_bound_iff .contravariant true parity within_members hmem
      (.inr (hcanonical.equalAnswers within_members hmem))
    obtain rfl := hb.mpr fun ms he _ l hl => by
      cases meet_eq.symm.trans he
      rcases List.mem_pair.mp ht with rfl | rfl
      · rw [hl.eq_self (by simp [left, record])]
        exact retains_left
      · rw [hl.eq_self (by simp [right])]
        exact retains_right
    exact hrun
  · have hleaf : ∀ l, Ty.InterLeaf (.array pair) l → l.NotUnionObjectOrNever := fun l hl => by
      rw [hl.eq_self (by simp)]
      exact ⟨by simp, by simp [Ty.IsObject], by simp⟩
    obtain ⟨b, hrun, hb⟩ := meet_lower_bound_iff .contravariant true parity
      (fun u hu => (harray u hu).unnamed ⟨fun _ => rfl⟩) (by simp) (.inl ⟨harray, .inr hleaf⟩)
    obtain rfl := hb.mpr fun ms _ _ l hl => (hleaf l hl).retains
    exact hrun
  · have hmem : record [("b", text), ("p", optional)] ∈ lost := by simp [lost]
    obtain ⟨b, hrun, hb⟩ := meet_lower_bound_iff .contravariant false parity
      (fun u hu => (hlost u hu).unnamed ⟨fun _ => rfl⟩) hmem (.inl ⟨hlost, .inl rfl⟩)
    have hno : b = false := Bool.eq_false_iff.mpr fun hyes =>
      not_retains_lost (hb.mp hyes lost rfl (by decide) _ (.self (by simp [record])))
    exact hno ▸ hrun

namespace Sample

/-- An object with an index only. -/
def keyed (value : Ty) : Ty := .object [] (some ⟨.string, value⟩) none

/-- The number one, written with a point. -/
def oneDouble : Ty := .literal (.number (.double (.finite false 4503599627370496 (-52))))

def oneAndHalf : Ty := .literal (.number (.double (.finite false 6755399441055744 (-52))))

/-- An intersection that lists its members in an order that depends on how the number is written. -/
def either (o : Ty) : Ty :=
  Ty.meet [record [("o", o), ("n", Ty.any), ("x", optional)],
    record [("o", oneAndHalf), ("n", text), ("x", record [("a", text)])]]

/-- Types that do not fit, each with the types that it is intersected with. -/
def refused : List (Ty × List Ty) :=
  [ -- a union
    (Ty.join [record [("a", text)], record [("b", number)]], [record [("c", text)]]),
    -- a property beside an index that it does not fit
    (keyed number, [record [("a", text)]]),
    -- a property that three members declare
    (record [("b", text), ("p", optional)],
      [record [("a", text), ("p", record [])], record [("c", text), ("p", record [("a", text)])]]),
    -- an intersection within a property that two members declare
    (record [("a", text), ("p", Ty.meet [record [("b", text), ("q", record [])],
        record [("c", text), ("q", optional)]])],
      [record [("b", text), ("p", record [("d", text), ("q", record [("a", text)])])]]),
    -- an index within such a property
    (record [("b", text), ("p", keyed number)],
      [record [("a", text), ("p", record [("a", text)])]]),
    -- two equal intersections that fit differently
    (record [("f", either oneDouble), ("g", either one)],
      [record [("g", record [("n", number), ("x", record [])]),
        ("f", record [("n", number), ("x", record [])])]])]

/-- A union, a property that does not fit an index, three types for one property, types that clash
around an intersection or an index, and two questions that are taken for one: all of these are
lost. -/
theorem meet_not_lower_bound :
    (∀ c ∈ refused, ∀ u ∈ c.1 :: c.2, Ty.Within .unnamed u) ∧
      ∀ c ∈ refused, (freshAnswers (Env.surroundings .contravariant true) 30 parity
        [⟨Ty.meet (c.1 :: c.2), c.1⟩]).toOption = some [false] := by
  have hw : ∀ c ∈ refused, ∀ u ∈ c.1 :: c.2, Ty.holdsWithin Ty.WellShaped 6 u := by
    decide +kernel
  have hr : ∀ c ∈ refused, ∀ u ∈ c.1 :: c.2, Ty.holdsWithin (Ty.isRef · = false) 6 u := by
    decide +kernel
  refine ⟨fun c hc u hu => ?_, by decide +kernel⟩
  exact Ty.within_unnamed (Ty.everywhere_of_holdsWithin (hw c hc u hu))
    (Ty.everywhere_of_holdsWithin (hr c hc u hu))

end Sample

end ShapeCheck

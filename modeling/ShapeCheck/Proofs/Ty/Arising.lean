import Mathlib.Data.Set.Finite.List
import ShapeCheck.Proofs.Ty.Combine
import ShapeCheck.Proofs.Ty.Fields

/-! The types that are made from given ones when properties are collected. From finitely many
types only finitely many arise, since combining types again leads to none that are new. -/

namespace ShapeCheck

theorem finite_nodup_lists {α : Type} {s : Set α} (h : s.Finite) :
    {l : List α | l.Nodup ∧ ∀ x ∈ l, x ∈ s}.Finite := by
  have hs : Finite s := h
  have hlists := List.finite_length_le s h.toFinset.card
  refine (hlists.image (List.map Subtype.val)).subset ?_
  rintro l ⟨hd, hl⟩
  refine ⟨l.attachWith (· ∈ s) hl, ?_, by simp⟩
  have hsub : l ⊆ h.toFinset.toList := fun x hx => by simpa using hl x hx
  have hle := (hd.subperm hsub).length_le
  simpa using hle

namespace Ty
variable {B : Set Ty} {t u : Ty} {ts : List Ty}

/-- Types whose parts are among them, the extremes included. -/
structure Base (B : Set Ty) : Prop where
  any : Ty.any ∈ B
  never : Ty.never ∈ B
  child : ∀ {t u : Ty}, t ∈ B → u ∈ t.children → u ∈ B

/-- The types inside finitely many ones are such types, and finitely many. -/
theorem exists_base (roots : List Ty) : ∃ B, B.Finite ∧ Base B ∧ ∀ t ∈ roots, t ∈ B := by
  let all := Ty.any :: Ty.never :: roots
  have hroot : ∀ r ∈ all, r ∈ ⋃ r ∈ {r | r ∈ all}, {u | Inside r u} := fun r hr =>
    Set.mem_biUnion hr (.here r)
  refine ⟨⋃ r ∈ {r | r ∈ all}, {u | Inside r u}, ?_, ⟨?_, ?_, ?_⟩, fun t ht => ?_⟩
  · exact all.finite_toSet.biUnion fun r _ => finite_inside r
  · exact hroot _ (by simp [all])
  · exact hroot _ (by simp [all])
  · intro t u ht hu
    obtain ⟨r, hr, ht⟩ := Set.mem_iUnion₂.mp ht
    exact Set.mem_biUnion hr (ht.tail hu)
  · exact hroot t (by simp [all, ht])

/-- The given types and intersections of them. -/
def meets (B : Set Ty) : Set Ty :=
  B ∪ Ty.inter '' {ms | ms.Nodup ∧ ∀ m ∈ ms, m ∈ B}

/-- What a property can have for a type: unions of these. -/
def blends (B : Set Ty) : Set Ty :=
  meets B ∪ Ty.union '' {ms | ms.Nodup ∧ ∀ m ∈ ms, m ∈ meets B}

/-- The names of properties. -/
def fieldNames (B : Set Ty) : Set String :=
  {n | ∃ fs i o, Ty.object fs i o ∈ B ∧ ∃ f ∈ fs, f.name = n}

/-- A type with properties of these types, and its index. -/
structure Shape (B : Set Ty) (fs : List (Field Ty)) (i : Option (Index Ty)) : Prop where
  apart : Field.Apart fs
  name : ∀ f ∈ fs, f.name ∈ fieldNames B
  type : ∀ f ∈ fs, f.type ∈ blends B
  index : ∀ j, i = some j → j.value ∈ blends B

def arising (B : Set Ty) : Set Ty :=
  blends B ∪ {t | ∃ fs i, t = .object fs i none ∧ Shape B fs i}

theorem mem_blends_of_mem (h : t ∈ B) : t ∈ blends B := .inl (.inl h)

theorem finite_blends (h : B.Finite) : (blends B).Finite := by
  have hm : (meets B).Finite := h.union ((finite_nodup_lists h).image _)
  exact hm.union ((finite_nodup_lists hm).image _)

theorem finite_fieldNames (h : B.Finite) : (fieldNames B).Finite := by
  have hall : (⋃ t ∈ B, {n | ∃ fs i o, t = Ty.object fs i o ∧ ∃ f ∈ fs, f.name = n}).Finite := by
    refine h.biUnion fun t _ => ?_
    cases t with
    | object fs i o =>
      refine (fs.map (·.name)).finite_toSet.subset ?_
      rintro n ⟨_, _, _, ⟨rfl, rfl, rfl⟩, f, hf, rfl⟩
      exact List.mem_map.mpr ⟨f, hf, rfl⟩
    | _ => simp
  refine hall.subset ?_
  rintro n ⟨fs, i, o, ho, hn⟩
  exact Set.mem_biUnion ho ⟨fs, i, o, rfl, hn⟩

/-- Finitely many types arise from finitely many. -/
theorem finite_arising (h : B.Finite) : (arising B).Finite := by
  have hb := finite_blends h
  have hfields : {f : Field Ty | f.name ∈ fieldNames B ∧ f.type ∈ blends B}.Finite := by
    have hall := ((finite_fieldNames h).prod hb).prod
      (Set.finite_univ : (Set.univ : Set Bool).Finite)
    refine (hall.image fun p => ⟨p.1.1, p.1.2, p.2⟩).subset ?_
    exact fun f hf => ⟨((f.name, f.type), f.optional), ⟨⟨hf.1, hf.2⟩, trivial⟩, rfl⟩
  have hindex : {i : Option (Index Ty) | ∀ j, i = some j → j.value ∈ blends B}.Finite := by
    have hkeys : (Set.univ : Set Key).Finite :=
      (Set.toFinite {Key.string, Key.number}).subset fun k _ => by cases k <;> simp
    refine (((hkeys.prod hb).image fun p => some (Index.mk p.1 p.2)).insert none).subset ?_
    rintro (_ | j) hj
    · exact Set.mem_insert _ _
    · exact Set.mem_insert_of_mem _ ⟨(j.key, j.value), ⟨trivial, hj j rfl⟩, rfl⟩
  refine hb.union ((((finite_nodup_lists hfields).prod hindex).image
    fun p => Ty.object p.1 p.2 none).subset ?_)
  rintro _ ⟨fs, i, rfl, hs⟩
  exact ⟨(fs, i), ⟨⟨hs.apart.of_map _, fun f hf => ⟨hs.name f hf, hs.type f hf⟩⟩, hs.index⟩, rfl⟩

theorem Base.meets_child (hB : Base B) (ht : t ∈ meets B) (hu : u ∈ t.children) : u ∈ B := by
  rcases ht with ht | ⟨ms, ⟨_, hms⟩, rfl⟩
  · exact hB.child ht hu
  · exact hms u hu

theorem Base.blends_child (hB : Base B) (ht : t ∈ blends B) (hu : u ∈ t.children) :
    u ∈ blends B := by
  rcases ht with ht | ⟨ms, ⟨_, hms⟩, rfl⟩
  · exact mem_blends_of_mem (hB.meets_child ht hu)
  · exact .inl (hms u hu)

theorem Base.arising_child (hB : Base B) (ht : t ∈ arising B) (hu : u ∈ t.children) :
    u ∈ arising B := by
  rcases ht with ht | ⟨fs, i, rfl, hs⟩
  · exact .inl (hB.blends_child ht hu)
  · rcases mem_children_object.mp hu with ⟨f, hf, rfl⟩ | ⟨j, hj, rfl⟩
    · exact .inl (hs.type f hf)
    · exact .inl (hs.index j hj)

theorem Base.join_mem (hB : Base B) (h : ∀ t ∈ ts, t ∈ blends B) : join ts ∈ blends B := by
  have hparts : ∀ u ∈ ts.flatMap unionParts, u ∈ meets B := by
    intro u hu
    obtain ⟨t, ht, hut⟩ := List.mem_flatMap.mp hu
    rcases mem_unionParts hut with rfl | ⟨ms, rfl, hm⟩
    · rcases h u ht with hm | ⟨ms, ⟨_, hms⟩, rfl⟩
      · exact hm
      · exact hms _ hut
    · rcases h _ ht with hb | ⟨_, ⟨_, hms⟩, ⟨rfl⟩⟩
      · exact .inl (hB.meets_child hb hm)
      · exact hms u hm
  rcases join_cases ts with hm | he | ⟨ms, he, _, hd, hs⟩
  · exact .inl (hparts _ hm)
  · exact he ▸ mem_blends_of_mem hB.never
  · exact he ▸ .inr ⟨ms, ⟨hd, fun m hm => hparts m (hs.subset hm)⟩, rfl⟩

/-- Types that are no unions are intersected within the given types. -/
theorem Base.meet_mem (hB : Base B) {a b : Ty} (ha : a ∈ blends B) (hb : b ∈ blends B)
    (hau : ∀ ms, a ≠ .union ms) (hbu : ∀ ms, b ≠ .union ms) : meet [a, b] ∈ blends B := by
  have hparts : ∀ {t : Ty}, t ∈ blends B → (∀ ms, t ≠ .union ms) → t ∈ meets B ∧
      ((∀ ms, t ≠ .inter ms) → t ∈ B) := by
    intro t ht hu
    rcases ht with ht | ⟨ms, _, rfl⟩
    · refine ⟨ht, fun hi => ?_⟩
      rcases ht with ht | ⟨ms, _, rfl⟩
      · exact ht
      · exact (hi ms rfl).elim
    · exact (hu ms rfl).elim
  have hin : ∀ {t : Ty}, t ∈ blends B → (∀ ms, t ≠ .union ms) → ∀ u ∈ interParts t, u ∈ B := by
    intro t ht hu u hm
    cases t with
    | inter ms => exact hB.meets_child (hparts ht hu).1 hm
    | _ =>
      cases List.mem_singleton.mp hm
      exact (hparts ht hu).2 (by simp)
  have hall : ∀ u ∈ [a, b].flatMap interParts, u ∈ B := by
    intro u hu
    simp only [List.flatMap_cons, List.flatMap_nil, List.append_nil] at hu
    rcases List.mem_append.mp hu with hu | hu
    · exact hin ha hau u hu
    · exact hin hb hbu u hu
  rcases meet_cases [a, b] with hm | he | he | ⟨ms, he, hd, hs⟩
  · exact mem_blends_of_mem (hall _ hm)
  · exact he ▸ mem_blends_of_mem hB.never
  · exact he ▸ mem_blends_of_mem hB.any
  · exact he ▸ .inl (.inr ⟨ms, ⟨hd, fun m hm => hall m (hs.subset hm)⟩, rfl⟩)

end Ty
end ShapeCheck

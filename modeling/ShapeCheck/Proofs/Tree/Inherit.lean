import ShapeCheck.Proofs.Tree.Sites

/-! What an interface takes over from its bases. A field or an index comes from the first base that
has one, and what the interface declares itself stands in the place of what it inherits. -/

namespace ShapeCheck
variable {φ : Features} {N : Naming} {defined : String → Bool} {α β : Type}

namespace Ty

/-- The field of an object with a name. -/
def field? (n : String) : Ty → Option (Field Ty)
  | .object fs _ _ => Field.find? fs n
  | _ => none

/-- What an interface may extend. -/
def IsBase (t : Ty) : Prop := t = Ty.any ∨ t = Ty.never ∨ ∃ fs i n, t = .object fs i n

end Ty

namespace Recipe
variable {r : Recipe α} {f : α → Recipe β}

/-- Read with these names, the recipe finds nothing wrong. -/
def Quiet (N : Naming) (r : Recipe α) : Prop := ∀ d, Deed.say d ∉ (r.under N).left

theorem Quiet.bind {a : α} (h : (r >>= f).Quiet N) (ha : (r.under N).result = .ok a) :
    r.Quiet N ∧ (f a).Quiet N := by
  simp only [Quiet, under_bind, Deeds.bind_ok ha, List.mem_append, not_or] at h
  exact ⟨fun d => (h d).1, fun d => (h d).2⟩

end Recipe

namespace Build
open Recipe

namespace Inherited
variable {acc : Inherited}

/-- What is inherited with one more base. -/
def take (acc : Inherited) : Ty → Inherited
  | .object fs index _ => acc.add fs index
  | _ => acc

theorem find?_addField (fs : List (Field Ty)) (g : Field Ty) (n : String) :
    Field.find? (addField fs g) n = (Field.find? fs n).or (Field.find? [g] n) := by
  unfold addField
  split
  · rename_i hsome
    by_cases hn : g.name = n
    · obtain ⟨f, hf⟩ := Option.isSome_iff_exists.mp hsome
      rw [← hn, hf, Option.some_or]
    · rw [Field.find?_cons, if_neg hn]
      exact Option.or_none.symm
  · exact Field.find?_append fs [g] n

theorem find?_addFields (fs gs : List (Field Ty)) (n : String) :
    Field.find? (gs.foldl addField fs) n = (Field.find? fs n).or (Field.find? gs n) := by
  induction gs generalizing fs with
  | nil => exact Option.or_none.symm
  | cons g gs ih =>
    rw [List.foldl_cons, ih, find?_addField, Option.or_assoc, ← Field.find?_append]
    rfl

theorem find?_take (acc : Inherited) (t : Ty) (n : String) :
    Field.find? (acc.take t).fields n = (Field.find? acc.fields n).or (t.field? n) := by
  cases t with
  | object fs i m => exact find?_addFields acc.fields fs n
  | _ => exact Option.or_none.symm

theorem index_take (acc : Inherited) (t : Ty) : (acc.take t).index = acc.index.or t.index? := by
  cases t with
  | object fs i m => cases acc with | mk gs index => cases index <;> rfl
  | _ => exact Option.or_none.symm

/-- A field comes from the first base that has one of this name. -/
theorem find?_takeAll (acc : Inherited) (ts : List Ty) (n : String) :
    Field.find? (ts.foldl take acc).fields n =
      (Field.find? acc.fields n).or (ts.findSome? (·.field? n)) := by
  induction ts generalizing acc with
  | nil => simp
  | cons t ts ih =>
    rw [List.foldl_cons, ih, find?_take, Option.or_assoc, List.findSome?_cons]
    cases t.field? n <;> rfl

/-- The index comes from the first base that has one. -/
theorem index_takeAll (acc : Inherited) (ts : List Ty) :
    (ts.foldl take acc).index = acc.index.or (ts.findSome? (·.index?)) := by
  induction ts generalizing acc with
  | nil => simp
  | cons t ts ih =>
    rw [List.foldl_cons, ih, index_take, Option.or_assoc, List.findSome?_cons]
    cases t.index? <;> rfl

end Inherited

/-- What is inherited from several bases in turn. -/
def inherited (N : Naming) (bases : List (String × Option Span)) : Inherited :=
  (bases.map (N.bound ·.1)).foldl Inherited.take ⟨[], none⟩

section Among
variable {earlier later : List (String × Option Span)} {base n : String} {place : Option Span}

theorem find?_inherited : Field.find? (inherited N (earlier ++ (base, place) :: later)).fields n =
    ((earlier.map (N.bound ·.1)).findSome? (·.field? n)).or
      (((N.bound base).field? n).or ((later.map (N.bound ·.1)).findSome? (·.field? n))) := by
  rw [inherited, Inherited.find?_takeAll, List.map_append, List.findSome?_append, List.map_cons,
    List.findSome?_cons]
  cases (N.bound base).field? n <;> rfl

theorem isSome_find?_inherited (h : ((N.bound base).field? n).isSome) :
    (Field.find? (inherited N (earlier ++ (base, place) :: later)).fields n).isSome := by
  simp [find?_inherited, h]

theorem find?_inherited_of_first {g : Field Ty} (h : (N.bound base).field? n = some g)
    (hfirst : ¬∃ t ∈ earlier.map (N.bound ·.1), (t.field? n).isSome) :
    Field.find? (inherited N (earlier ++ (base, place) :: later)).fields n = some g := by
  have hnone : (earlier.map (N.bound ·.1)).findSome? (·.field? n) = none :=
    List.findSome?_eq_none_iff.mpr fun t ht => Option.not_isSome_iff_eq_none.mp fun hsome =>
      hfirst ⟨t, ht, hsome⟩
  rw [find?_inherited, hnone, h]
  rfl

theorem index_inherited_of_first {i : Index Ty} (h : (N.bound base).index? = some i)
    (hfirst : ¬∃ t ∈ earlier.map (N.bound ·.1), t.index?.isSome) :
    (inherited N (earlier ++ (base, place) :: later)).index = some i := by
  have hnone : (earlier.map (N.bound ·.1)).findSome? (·.index?) = none :=
    List.findSome?_eq_none_iff.mpr fun t ht => Option.not_isSome_iff_eq_none.mp fun hsome =>
      hfirst ⟨t, ht, hsome⟩
  rw [inherited, Inherited.index_takeAll, List.map_append, List.findSome?_append, hnone,
    List.map_cons, List.findSome?_cons, h]
  rfl

end Among

/-- One base after the other: nothing is said of it only if it can be extended. -/
theorem under_inherit_cons (hN : N.Fair φ defined) (acc : Inherited) (name : String)
    (span : Option Span) (bases : List (String × Option Span)) :
    ∃ said : List Diagnostic, (said = [] → (N.bound name).IsBase) ∧
      ((inherit acc ((name, span) :: bases)).under N).result =
        ((inherit (acc.take (N.bound name)) bases).under N).result ∧
      ((inherit acc ((name, span) :: bases)).under N).left =
        said.map .say ++ ((inherit (acc.take (N.bound name)) bases).under N).left := by
  have hlook : N.look (N.bound name) = N.bound name :=
    N.look_of_not_ref (hN.firm name).grounded.not_ref
  simp only [inherit, under_bind, named, unwrapped, under, Deeds.bind, hlook, List.nil_append]
  split
  · rename_i hb
    exact ⟨[], fun _ => .inl hb, by rw [hb]; rfl, by rw [hb]; rfl⟩
  · rename_i hb
    exact ⟨[], fun _ => .inr (.inl hb), by rw [hb]; rfl, by rw [hb]; rfl⟩
  · rename_i fs i n hb
    exact ⟨[], fun _ => .inr (.inr ⟨fs, i, n, hb⟩), by rw [hb]; rfl, by rw [hb]; rfl⟩
  · rename_i hobject
    have htake : acc.take (N.bound name) = acc := by
      unfold Inherited.take
      split
      · rename_i hb
        exact (hobject _ _ _ hb).elim
      · rfl
    rw [htake]
    exact ⟨[_], fun h => (List.cons_ne_nil _ _ h).elim, rfl, rfl⟩

theorem result_inherit (hN : N.Fair φ defined) (acc : Inherited)
    (bases : List (String × Option Span)) :
    ((inherit acc bases).under N).result =
      .ok ((bases.map (N.bound ·.1)).foldl Inherited.take acc) := by
  induction bases generalizing acc with
  | nil => rfl
  | cons base bases ih =>
    obtain ⟨said, -, hresult, -⟩ := under_inherit_cons hN acc base.1 base.2 bases
    exact hresult.trans (ih _)

theorem isBase_of_quiet (hN : N.Fair φ defined) {acc : Inherited}
    {bases : List (String × Option Span)} (hq : (inherit acc bases).Quiet N) :
    ∀ b ∈ bases, (N.bound b.1).IsBase := by
  induction bases generalizing acc with
  | nil => simp
  | cons base bases ih =>
    obtain ⟨said, hsaid, -, hleft⟩ := under_inherit_cons hN acc base.1 base.2 bases
    unfold Quiet at hq
    rw [hleft] at hq
    refine List.forall_mem_cons.mpr ⟨hsaid ?_, ih fun d hd => hq d (List.mem_append_right _ hd)⟩
    refine List.eq_nil_iff_forall_not_mem.mpr fun d hd => hq d ?_
    exact List.mem_append_left _ (List.mem_map_of_mem hd)

/-- Declared properties replace inherited fields of their names, and other fields stay. -/
theorem find?_fields {span : Option Span} {own : List String} {collected fs : List (Field Ty)}
    {ps : List (PropertySig TypeExpr)}
    (h : ((fields span own collected ps).under N).result = .ok fs) (n : String) :
    (n ∉ ps.map (·.name) → Field.find? fs n = Field.find? collected n) ∧
      ((Field.find? collected n).isSome → (Field.find? fs n).isSome) := by
  induction ps generalizing own collected with
  | nil =>
    cases h
    exact ⟨fun _ => rfl, id⟩
  | cons p ps ih =>
    obtain ⟨m, e, optional, place⟩ := p
    simp only [List.map_cons, List.mem_cons, not_or]
    unfold fields at h
    split at h
    · obtain ⟨_, -, h, -⟩ := result_bind h
      exact ⟨fun hn => (ih h).1 hn.2, (ih h).2⟩
    · obtain ⟨t, -, h, -⟩ := result_bind h
      have hput := Field.find?_put ⟨m, t, optional⟩ collected n
      refine ⟨fun hn => ?_, fun hsome => (ih h).2 ?_⟩
      · rw [(ih h).1 hn.2, hput, if_neg fun he => hn.1 he.symm]
      · rw [hput]
        split
        · rfl
        · exact hsome

theorem eq_of_quiet_settleIndex {fs : List (Field Ty)} {name : Option String}
    {span : Option Span} {wanted kept : Option (Index Ty)}
    (h : ((settleIndex fs name span wanted).under N).result = .ok kept)
    (hq : (settleIndex fs name span wanted).Quiet N) : kept = wanted := by
  cases wanted with
  | none =>
    cases h
    rfl
  | some i =>
    unfold settleIndex at h hq
    dsimp only at h hq
    split at h
    · rename_i hobject
      split at h <;> cases h <;> rfl
    · rename_i hobject
      simp [hobject, Quiet, Deeds.bind] at hq
    · cases h

/-- The properties and the index of an interface that is built without a problem. -/
structure Interface (N : Naming) (name : String) (properties : List (PropertySig TypeExpr))
    (declared : Option (IndexSig TypeExpr)) (bases : List (String × Option Span))
    (span : Option Span) (fs : List (Field Ty)) (index : Option (Index Ty)) : Prop where
  base : ∀ b ∈ bases, (N.bound b.1).IsBase
  undeclared : ∀ n, n ∉ properties.map (·.name) →
    Field.find? fs n = Field.find? (inherited N bases).fields n
  kept : ∀ n, (Field.find? (inherited N bases).fields n).isSome → (Field.find? fs n).isSome
  taken : declared = none → index = (inherited N bases).index
  site : ∀ i, index = some i →
    interfaceSite? N name properties declared bases span = some ⟨fs, i, some name, span⟩
  owed : .owe (.refinement name (properties.map fun p => (p.name, p.span <|> span)) fs
    (inherited N bases).fields) ∈
      ((ofInterface name properties declared bases span).under N).left

theorem interface_of_quiet (hN : N.Fair φ defined) {name : String}
    {properties : List (PropertySig TypeExpr)} {declared : Option (IndexSig TypeExpr)}
    {bases : List (String × Option Span)} {span : Option Span} {t : Ty}
    (h : ((ofInterface name properties declared bases span).under N).result = .ok t)
    (hq : (ofInterface name properties declared bases span).Quiet N) :
    ∃ fs index, t = .object fs index (some name) ∧
      Interface N name properties declared bases span fs index := by
  unfold ofInterface at h hq
  have hinherit := result_inherit hN ⟨[], none⟩ bases
  obtain ⟨acc, hacc, h, hleft₁⟩ := result_bind h
  cases hacc.symm.trans hinherit
  obtain ⟨hqi, hq⟩ := hq.bind hinherit
  obtain ⟨fs, hfs, h, hleft₂⟩ := result_bind h
  obtain ⟨-, hq⟩ := hq.bind hfs
  obtain ⟨own, hown, h, hleft₃⟩ := result_bind h
  obtain ⟨-, hq⟩ := hq.bind hown
  obtain ⟨kept, hkept, h, hleft₄⟩ := result_bind h
  obtain ⟨hqk, -⟩ := hq.bind hkept
  cases h
  have hindex := eq_of_quiet_settleIndex hkept hqk
  refine ⟨fs, kept, rfl, isBase_of_quiet hN hqi, fun n => (find?_fields hfs n).1,
    fun n => (find?_fields hfs n).2, ?_, ?_, ?_⟩
  · rintro rfl
    exact hindex
  · rintro i rfl
    rw [interfaceSite?_eq name span hacc hfs hown, ← hindex]
    rfl
  · unfold ofInterface
    rw [hleft₁, hleft₂, hleft₃, hleft₄]
    simp [Deeds.bind, inherited]

end Build
end ShapeCheck

import ShapeCheck.Env.Recipe
import ShapeCheck.Fit.Object
import ShapeCheck.Tree.Basic

/-!
Types from type expressions.

At the top of an alias, among members and among elements a name is resolved at once, so an alias
that reaches itself there is circular. Inside objects and signatures a name stays a reference,
and shapes may be recursive.
-/

namespace ShapeCheck.Build

/-- A defect as a sentence. -/
def sentence (d : Defect) : String := d.message.capitalize ++ "."

/-- A part, or a report of why there is none. -/
def guarded {α : Type} (span : Option Span) : Except Defect α → Recipe (Option α)
  | .ok a => pure (some a)
  | .error d => do
    Recipe.say (.plain .typeMismatch (sentence d) span)
    pure none

/-- A name, resolved at once or kept as a reference. An undefined one is always resolved. -/
def reference (eager : Bool) (name : String) (span : Option Span) : Recipe Ty := do
  if eager then Recipe.named name span
  else if ← Recipe.knows name then pure (.ref name)
  else Recipe.named name span

/-- The problem of an index that the fields of its object do not fit. -/
def indexViolation (d : Defect) (index : Index Ty) (span : Option Span) : Diagnostic where
  kind := .indexSignatureViolation
  message := sentence d
  span := span
  expected := some index.value
  actual := none
  notes := []

/-- The index an object gets. One that its fields do not fit is reported and dropped; one that
cannot be checked yet is kept and left for later. -/
def settleIndex (fields : List (Field Ty)) (name : Option String) (span : Option Span) :
    Option (Index Ty) → Recipe (Option (Index Ty))
  | none => pure none
  | some index =>
    match Ty.objectOf fields (some index) name with
    | .ok _ => do
      if index.value.defers || fields.any (·.type.defers) then
        Recipe.later (.index fields index name span)
      pure (some index)
    | .error (.defect d) => do
      Recipe.say (indexViolation d index span)
      pure none
    | .error e => Recipe.fail e

/-- A callable has a signature at least. -/
def needSignature : Option (List (Signature Ty)) → Recipe (Option (List (Signature Ty)))
  | some [] => do
    Recipe.say (.plain .typeMismatch (sentence .noCallSignature) none)
    pure none
  | ss => pure ss

mutual
/-- The type of an expression. `name` is the display name of an object at the top. -/
def type (eager : Bool) (name : Option String) : TypeExpr → Recipe Ty
  | .named n span => reference eager n span
  | .prim k => pure (.prim k)
  | .literal v span => do
    match ← guarded span (Literal.ofValue v) with
    | some l => pure (.literal l)
    | none => pure Ty.never
  | .array e => do return .array (← type eager none e)
  | .tuple es => do return .tuple (← types eager es)
  | .union ms => do return Ty.join (← types eager ms)
  | .inter ms => do return Ty.meet (← types eager ms)
  | .object ps none span => do
    let fs ← fields span [] [] ps
    pure (.object fs none name)
  | .object ps (some ⟨key, value, place⟩) span => do
    let fs ← fields span [] [] ps
    let v ← type false none value
    let key ← guarded (place <|> span) (Key.ofPrim key)
    let index ← settleIndex fs name span (key.map (⟨·, v⟩))
    pure (.object fs index name)
  | .func ss none => do
    match ← needSignature (← signatures ss) with
    | some built => pure (.func built none)
    | none => pure Ty.never
  | .func ss (some r) => do
    match ← needSignature (← signatures ss) with
    | some built => do return .func built (some (← type false none r))
    | none => pure Ty.never
  | .ctor ss => do
    match ← needSignature (← signatures ss) with
    | some built => pure (.ctor built)
    | none => pure Ty.never
  | .misplaced node => Recipe.fail (.misplaced .typeExpression node)

def types (eager : Bool) : List TypeExpr → Recipe (List Ty)
  | [] => pure []
  | e :: es => do
    let t ← type eager none e
    return t :: (← types eager es)

/-- Adds properties to the fields collected so far, in the place of an inherited one of the same
name. A name declared a second time is reported, at its own place or else at the object's. -/
def fields (span : Option Span) (own : List String) (collected : List (Field Ty)) :
    List (PropertySig TypeExpr) → Recipe (List (Field Ty))
  | [] => pure collected
  | ⟨n, e, optional, place⟩ :: ps => do
    if own.contains n then
      Recipe.say (.plain .typeMismatch ("Duplicate identifier '" ++ n ++ "'.") (place <|> span))
      fields span own collected ps
    else
      let t ← type false none e
      fields span (n :: own) (Field.put ⟨n, t, optional⟩ collected) ps

def params : List (ParamExpr TypeExpr) → Recipe (List (Param Ty))
  | [] => pure []
  | ⟨n, e, optional, rest⟩ :: ps => do
    let t ← type false none e
    return ⟨n, t, optional, rest⟩ :: (← params ps)

/-- Signatures up to the first malformed one, which is reported and leaves none. -/
def signatures : List (SignatureExpr TypeExpr) → Recipe (Option (List (Signature Ty)))
  | [] => pure (some [])
  | ⟨ps, r, span⟩ :: ss => do
    let built ← params ps
    let result ← type false none r
    match ← guarded span (Signature.ofParts built result) with
    | none => pure none
    | some s => return (← signatures ss).map (s :: ·)
end

/-- What an interface inherits: the fields of its bases, the first of a name, and the first
index. -/
structure Inherited where
  fields : List (Field Ty)
  index : Option (Index Ty)

/-- Adds a field unless the name is taken. -/
def Inherited.addField (fs : List (Field Ty)) (f : Field Ty) : List (Field Ty) :=
  if (Field.find? fs f.name).isSome then fs else fs ++ [f]

def Inherited.add (i : Inherited) (fs : List (Field Ty)) (index : Option (Index Ty)) :
    Inherited where
  fields := fs.foldl addField i.fields
  index := i.index <|> index

/-- Collects from bases in turn. A base that is no object is reported, unless it has been
already. -/
def inherit (acc : Inherited) : List (String × Option Span) → Recipe Inherited
  | [] => pure acc
  | (name, span) :: bases => do
    let base ← Recipe.unwrapped (← Recipe.named name span)
    match base with
    | .prim .any | .prim .never => inherit acc bases
    | .object fs index _ => inherit (acc.add fs index) bases
    | t =>
      let message :=
        "An interface can only extend an object type; '" ++ name ++ "' is '" ++ t.display ++ "'."
      Recipe.say (.plain .typeMismatch message span)
      inherit acc bases

/-- The type of an alias. -/
def ofAlias (name : String) (body : TypeExpr) : Recipe Ty := type true (some name) body

/-- The index an interface declares. -/
def ownIndex (span : Option Span) : Option (IndexSig TypeExpr) → Recipe (Option (Index Ty))
  | none => pure none
  | some i => do
    let v ← type false none i.value
    return (← guarded (i.span <|> span) (Key.ofPrim i.key)).map (⟨·, v⟩)

/-- The type of an interface. Its own index counts, or else an inherited one. -/
def ofInterface (name : String) (properties : List (PropertySig TypeExpr))
    (index : Option (IndexSig TypeExpr)) (bases : List (String × Option Span))
    (span : Option Span) : Recipe Ty := do
  let inherited ← inherit ⟨[], none⟩ bases
  let fs ← fields span [] inherited.fields properties
  let declared ← ownIndex span index
  let wanted := if index.isNone then inherited.index else declared
  let kept ← settleIndex fs (some name) span wanted
  let places := properties.map fun p => (p.name, p.span <|> span)
  Recipe.later (.refinement name places fs inherited.fields)
  pure (.object fs kept (some name))

/-- The type of a declared function. -/
def ofFunc (ss : List (SignatureExpr TypeExpr)) (receiver : Option TypeExpr) : Recipe Ty :=
  type false none (.func ss receiver)

end ShapeCheck.Build

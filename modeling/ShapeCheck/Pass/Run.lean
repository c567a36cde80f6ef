import ShapeCheck.Pass.Declare

/-! Whole passes: declarations, then the checks that waited for all names to be bound. -/

namespace ShapeCheck
namespace Pass
variable [Lookup]

/-- Each property an interface declares against the one of that name it inherits. -/
def checkRefinement (s : Setting) (interface : String) (fields inherited : List (Field Ty)) :
    List (String × Option Span) → PassM Unit
  | [] => pure ()
  | (name, span) :: declared => do
    match Field.find? inherited name, Field.find? fields name with
    | some base, some own =>
      match ← checking (s.ask own.type base.type) with
      | none => pure ()
      | some _ =>
        report
          { kind := .typeMismatch
            message :=
              "Interface '" ++ interface ++ "' incorrectly extends its base: property '" ++ name
                ++ "' of type '" ++ own.type.display ++ "' is not assignable to '"
                ++ base.type.display ++ "'."
            span := span
            expected := some base.type
            actual := some own.type
            notes := [] }
    | _, _ => pure ()
    checkRefinement s interface fields inherited declared

/-- The problem of a field that does not fit the value type of an index. -/
def indexViolation (value : Ty) (span : Option Span) (f : Field Ty) : Diagnostic where
  kind := .indexSignatureViolation
  message :=
    "Property '" ++ f.name ++ "' of type '" ++ f.type.display
      ++ "' is not assignable to index signature type '" ++ value.display ++ "'."
  span := span
  expected := some value
  actual := some f.type
  notes := []

/-- Each field whose check had to wait against the index. -/
def checkWaiting (s : Setting) (value : Ty) (span : Option Span) : List (Field Ty) → PassM Unit
  | [] => pure ()
  | f :: fs => do
    if f.type.defers || value.defers then
      match ← checking (s.ask f.type value) with
      | none => pure ()
      | some _ => report (indexViolation value span f)
    checkWaiting s value span fs

/-- Handles duties from the `done`th on, those that arise on the way included. A round that
leaves new ones behind has filled a cell, so there are no more rounds than cells, and one. -/
def dischargeFrom (handle : Obligation → PassM Unit) : Nat → Nat → PassM Unit
  | 0, done => do
    match (← get).env.duties.drop done with
    | [] => pure ()
    | _ => throw .depthExceeded
  | rounds + 1, done => do
    match (← get).env.duties.drop done with
    | [] => pure ()
    | duties =>
      duties.forM handle
      dischargeFrom handle rounds (done + duties.length)

def dischargeAll (handle : Obligation → PassM Unit) : PassM Unit := do
  dischargeFrom handle ((← get).env.cells.length + 1) 0

def dischargeRefinement (s : Setting) : Obligation → PassM Unit
  | .refinement interface declared fields inherited =>
    checkRefinement s interface fields inherited declared
  | .index _ _ _ _ => pure ()

def dischargeIndex (s : Setting) : Obligation → PassM Unit
  | .index fields index _ span => checkWaiting s index.value span fields
  | .refinement _ _ _ _ => pure ()

/-- The checks left for later: interfaces against their bases first, then indexes. They stay on
record, so a further program checks them again. -/
def discharge (s : Setting) : PassM Unit := do
  dischargeAll (dischargeRefinement s)
  dischargeAll (dischargeIndex s)

/-- What is known after a program. -/
structure Report where
  diagnostics : List Diagnostic
  values : List (String × Ty)
  aliases : List (String × Ty)
  nodes : List (NodeKind × Ty)

/-- Checks one program on top of what the pass has seen. -/
def run (s : Setting) (program : Program) : PassM Report := do
  registerTypes program.declarations
  hoistFunctions program.declarations
  declareAll s program.declarations
  discharge s
  let p ← get
  pure ⟨p.diagnostics, p.scope.sorted, p.aliases, p.nodes⟩

/-- Objects whose index waits to be checked. -/
def waitingObjects (p : Pass) : List Ty :=
  p.env.duties.filterMap fun
    | .index fields index name _ => some (.object fields (some index) name)
    | .refinement _ _ _ _ => none

end Pass

/-- Checks one program from scratch. -/
def checkProgram (s : Setting) (program : Program) : Except Fault Pass.Report :=
  ((Pass.run s program).run.run Pass.empty).1

/-- Checks programs that have nothing to do with each other, in order. -/
def checkPrograms (s : Setting) (programs : List Program) : Except Fault (List Pass.Report) :=
  programs.mapM (checkProgram s)

end ShapeCheck

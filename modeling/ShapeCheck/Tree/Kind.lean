/-! The kinds of nodes in a program tree, by the names that answers give them. -/

namespace ShapeCheck

inductive NodeKind where
  | typeName | primitiveType | literalType | arrayType | tupleType | propertySig | indexSig
  | objectType | unionType | intersectionType | paramExpr | signatureExpr | functionType
  | constructorType | literalExpr | identifier | propertyAssignment | objectLiteral | arrayLiteral
  | propertyAccess | callExpr | newExpr | typeAliasDecl | interfaceDecl | valueDecl | functionDecl
  | exprStmt | program
deriving DecidableEq, Repr

namespace NodeKind

def title : NodeKind → String
  | .typeName => "TypeName"
  | .primitiveType => "PrimitiveTypeExpr"
  | .literalType => "LiteralTypeExpr"
  | .arrayType => "ArrayTypeExpr"
  | .tupleType => "TupleTypeExpr"
  | .propertySig => "PropertySig"
  | .indexSig => "IndexSig"
  | .objectType => "ObjectTypeExpr"
  | .unionType => "UnionTypeExpr"
  | .intersectionType => "IntersectionTypeExpr"
  | .paramExpr => "ParamExpr"
  | .signatureExpr => "SignatureExpr"
  | .functionType => "FunctionTypeExpr"
  | .constructorType => "ConstructorTypeExpr"
  | .literalExpr => "LiteralExpr"
  | .identifier => "Identifier"
  | .propertyAssignment => "PropertyAssignment"
  | .objectLiteral => "ObjectLiteral"
  | .arrayLiteral => "ArrayLiteral"
  | .propertyAccess => "PropertyAccess"
  | .callExpr => "CallExpr"
  | .newExpr => "NewExpr"
  | .typeAliasDecl => "TypeAliasDecl"
  | .interfaceDecl => "InterfaceDecl"
  | .valueDecl => "ValueDecl"
  | .functionDecl => "FunctionDecl"
  | .exprStmt => "ExprStmt"
  | .program => "Program"

def all : List NodeKind :=
  [.typeName, .primitiveType, .literalType, .arrayType, .tupleType, .propertySig, .indexSig,
    .objectType, .unionType, .intersectionType, .paramExpr, .signatureExpr, .functionType,
    .constructorType, .literalExpr, .identifier, .propertyAssignment, .objectLiteral, .arrayLiteral,
    .propertyAccess, .callExpr, .newExpr, .typeAliasDecl, .interfaceDecl, .valueDecl, .functionDecl,
    .exprStmt, .program]

def ofTitle? (title : String) : Option NodeKind := all.find? (·.title = title)

end NodeKind
end ShapeCheck

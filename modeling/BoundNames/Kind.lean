/-!
# Kinds of nodes

The kinds of ESTree node that can take part in a binding, and one kind for all others.
-/

set_option autoImplicit false
set_option relaxedAutoImplicit false

namespace BoundNames

/-- The kind of a node. -/
inductive Kind where
  | unknown
  | identifier
  | literal
  | arrayPattern
  | objectPattern
  | property
  | restElement
  | assignmentPattern
  | importDeclaration
  | importSpecifier
  | importDefaultSpecifier
  | importNamespaceSpecifier
deriving DecidableEq

namespace Kind

/-- The number of a kind. -/
def number : Kind → Nat
  | unknown => 0
  | identifier => 1
  | literal => 2
  | arrayPattern => 3
  | objectPattern => 4
  | property => 5
  | restElement => 6
  | assignmentPattern => 7
  | importDeclaration => 8
  | importSpecifier => 9
  | importDefaultSpecifier => 10
  | importNamespaceSpecifier => 11

/-- The ESTree type of a kind. Unknown nodes share none, so theirs is empty. -/
def typeName : Kind → String
  | unknown => ""
  | identifier => "Identifier"
  | literal => "Literal"
  | arrayPattern => "ArrayPattern"
  | objectPattern => "ObjectPattern"
  | property => "Property"
  | restElement => "RestElement"
  | assignmentPattern => "AssignmentPattern"
  | importDeclaration => "ImportDeclaration"
  | importSpecifier => "ImportSpecifier"
  | importDefaultSpecifier => "ImportDefaultSpecifier"
  | importNamespaceSpecifier => "ImportNamespaceSpecifier"

/-- The kind of an ESTree type. -/
def ofTypeName : String → Kind
  | "Identifier" => identifier
  | "Literal" => literal
  | "ArrayPattern" => arrayPattern
  | "ObjectPattern" => objectPattern
  | "Property" => property
  | "RestElement" => restElement
  | "AssignmentPattern" => assignmentPattern
  | "ImportDeclaration" => importDeclaration
  | "ImportSpecifier" => importSpecifier
  | "ImportDefaultSpecifier" => importDefaultSpecifier
  | "ImportNamespaceSpecifier" => importNamespaceSpecifier
  | _ => unknown

/-- Whether nodes of a kind destructure a value. -/
def isBindingPattern : Kind → Bool
  | arrayPattern | objectPattern => true
  | _ => false

/-- Whether nodes of a kind are specifiers of an import. -/
def isImportSpecifier : Kind → Bool
  | importSpecifier | importDefaultSpecifier | importNamespaceSpecifier => true
  | _ => false

/-- The two tables agree: each kind is the kind of its type. -/
theorem ofTypeName_typeName (k : Kind) : ofTypeName k.typeName = k := by
  cases k <;> rfl

/-- A type that is recognised is the type of its kind. -/
theorem typeName_ofTypeName {type : String} (h : ofTypeName type ≠ unknown) :
    (ofTypeName type).typeName = type := by
  unfold ofTypeName at h ⊢
  split at h
  case h_12 => exact absurd rfl h
  all_goals rfl

end Kind

end BoundNames

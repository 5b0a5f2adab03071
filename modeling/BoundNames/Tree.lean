import BoundNames.Lowering

/-!
# Trees

The tree that a JSON value stands for, without an arena: its nodes hold their children and the names
of their identifiers themselves. `Tree.ofJson` reads a tree off a JSON value, and `Arena.tree?`
reads one off an arena, so that the two can be compared.
-/

set_option autoImplicit false
set_option relaxedAutoImplicit false

namespace BoundNames

/-- A node with all that is below it. A child that is missing, or a hole of a list, is `none`. -/
inductive Tree where
  | identifier (span : Span) (name : String)
  | literal (span : Span) (raw : String)
  | arrayPattern (span : Span) (elements : List (Option Tree))
  | objectPattern (span : Span) (entries : List (Option Tree))
  | property (span : Span) (key value : Option Tree) (computed shorthand : Bool)
  | rest (span : Span) (argument : Option Tree)
  | assignment (span : Span) (left right : Option Tree)
  | importing (span : Span) (specifiers : List (Option Tree)) (source : Option Tree)
  | specifier (span : Span) (form : SpecifierForm) (imported localName : Option Tree)
  | foreign (span : Span) (typeName : String)

namespace Tree

open Json (textField? flag)
open Lowering (spanOf rawOf)

mutual

/-- The tree of a JSON value. What is no node, has no type, is an identifier without a name or has
an unknown type is a foreign node without children. -/
def ofJson : Json → Tree
  | .object fields =>
    match textField? "type" fields with
    | none => .foreign (spanOf fields) ""
    | some type =>
      match Kind.ofTypeName type with
      | .identifier =>
        match textField? "name" fields with
        | some name => .identifier (spanOf fields) name
        | none => .foreign (spanOf fields) type
      | .literal => .literal (spanOf fields) (rawOf fields)
      | .arrayPattern => .arrayPattern (spanOf fields) (ofList "elements" fields)
      | .objectPattern => .objectPattern (spanOf fields) (ofList "properties" fields)
      | .property =>
        .property (spanOf fields) (ofField "key" fields) (ofField "value" fields)
          (flag "computed" fields) (flag "shorthand" fields)
      | .restElement => .rest (spanOf fields) (ofField "argument" fields)
      | .assignmentPattern =>
        .assignment (spanOf fields) (ofField "left" fields) (ofField "right" fields)
      | .importDeclaration =>
        .importing (spanOf fields) (ofList "specifiers" fields) (ofField "source" fields)
      | .importSpecifier =>
        .specifier (spanOf fields) .named (ofField "imported" fields) (ofField "local" fields)
      | .importDefaultSpecifier =>
        .specifier (spanOf fields) .defaultExport none (ofField "local" fields)
      | .importNamespaceSpecifier =>
        .specifier (spanOf fields) .wholeModule none (ofField "local" fields)
      | .unknown => .foreign (spanOf fields) type
  | _ => .foreign .nowhere ""

/-- The child in a field, if the field is there and not `null`. -/
def ofField (key : String) : List (String × Json) → Option Tree
  | [] => none
  | (k, v) :: others =>
    if k = key then (if v.isNull then none else some (ofJson v)) else ofField key others

/-- The children in a field that is a list. -/
def ofList (key : String) : List (String × Json) → List (Option Tree)
  | [] => []
  | (k, v) :: others =>
    if k = key then
      match v with
      | .array items => ofItems items
      | _ => []
    else ofList key others

/-- The items of a list, with a hole for each `null`. -/
def ofItems : List Json → List (Option Tree)
  | [] => []
  | v :: others => (if v.isNull then none else some (ofJson v)) :: ofItems others

end

end Tree

namespace Arena

/-- The tree of a child: an absent one has none, and any other must unfold. -/
def child? (below : Handle → Option Tree) (h : Handle) : Option (Option Tree) :=
  if h.isAbsent then some none else (below h).map some

/-- The tree under a handle, or nothing if a node or its data are missing or the tree is deeper than
the budget. -/
def tree? (a : Arena) : Nat → Handle → Option Tree
  | 0, _ => none
  | budget + 1, h => do
    let span := (← a.header? h).span
    let child := child? (a.tree? budget)
    match ← a.shape? h with
    | .identifier symbol => return .identifier span (a.symbols.name symbol)
    | .literal raw => return .literal span raw
    | .arrayPattern elements => return .arrayPattern span (← elements.mapM child)
    | .objectPattern entries => return .objectPattern span (← entries.mapM child)
    | .property data =>
      return .property span (← child data.key) (← child data.value) data.computed data.shorthand
    | .rest argument => return .rest span (← child argument)
    | .assignment data => return .assignment span (← child data.left) (← child data.right)
    | .importing data =>
      return .importing span (← data.specifiers.mapM child) (← child data.source)
    | .specifier form data =>
      return .specifier span form (← child data.imported) (← child data.localName)
    | .foreign typeName => return .foreign span typeName

end Arena

end BoundNames

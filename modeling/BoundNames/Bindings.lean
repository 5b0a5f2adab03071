import BoundNames.Lowering

/-!
# Bindings of a JSON tree

The names that an ESTree value binds, each with its span, by recursion on the value alone: no arena,
no handles and no symbols take part.
-/

set_option autoImplicit false
set_option relaxedAutoImplicit false

namespace BoundNames.Json

open Lowering (spanOf)

/-- The kind of a value in the place of a node. -/
def kind : Json → Kind
  | object fields => ((textField? "type" fields).map Kind.ofTypeName).getD .unknown
  | _ => .unknown

mutual

/-- The names that a value binds, from left to right. -/
def bindings : Json → List (String × Span)
  | object fields =>
    match kind (object fields) with
    | .identifier => ((textField? "name" fields).map fun name ↦ (name, spanOf fields)).toList
    | .arrayPattern => listBindings "elements" fields
    | .objectPattern => entryBindings "properties" fields
    | .importDeclaration => listBindings "specifiers" fields
    | .assignmentPattern => fieldBindings "left" fields
    | .importSpecifier | .importDefaultSpecifier | .importNamespaceSpecifier =>
      fieldBindings "local" fields
    | .restElement => restBindings "argument" fields
    | .property | .literal | .unknown => []
  | _ => []

/-- The names that the value of a field binds. -/
def fieldBindings (key : String) : List (String × Json) → List (String × Span)
  | [] => []
  | (k, v) :: rest => if k = key then bindings v else fieldBindings key rest

/-- The names that the argument of a rest element binds: none if that is a rest element too. -/
def restBindings (key : String) : List (String × Json) → List (String × Span)
  | [] => []
  | (k, v) :: rest =>
    if k = key then (if kind v = .restElement then [] else bindings v) else restBindings key rest

/-- The names that the items of a list in a field bind. -/
def listBindings (key : String) : List (String × Json) → List (String × Span)
  | [] => []
  | (k, v) :: rest =>
    if k = key then
      match v with
      | array items => itemBindings items
      | _ => []
    else listBindings key rest

/-- The names that the items of a list bind. -/
def itemBindings : List Json → List (String × Span)
  | [] => []
  | v :: rest => bindings v ++ itemBindings rest

/-- The names that the entries of an object pattern bind. -/
def entryBindings (key : String) : List (String × Json) → List (String × Span)
  | [] => []
  | (k, v) :: rest =>
    if k = key then
      match v with
      | array items => entriesBindings items
      | _ => []
    else entryBindings key rest

/-- A property binds what its value binds, a rest element what it binds itself, and nothing else is
an entry. -/
def entriesBindings : List Json → List (String × Span)
  | [] => []
  | object fields :: rest =>
    (match kind (object fields) with
      | .property => fieldBindings "value" fields
      | .restElement => restBindings "argument" fields
      | _ => []) ++ entriesBindings rest
  | _ :: rest => entriesBindings rest

end

end BoundNames.Json

import BoundNames.Arena.Build
import BoundNames.Event
import BoundNames.Json.Writer

/-!
# Lowering ESTree

An ESTree node, as JSON, is stored in an arena children first. Nothing below the root is rejected:
what is no node becomes a foreign node, `null` in a list becomes a hole, and an object of unknown
type keeps its type and loses its children. Each node reads the fields of its type by their names,
so the order of the fields of an object does not matter.
-/

set_option autoImplicit false
set_option relaxedAutoImplicit false

namespace BoundNames

/-- An arena that is being filled, and what was reported of it. -/
structure Session where
  arena : Arena
  events : Array Event := #[]

namespace Session

/-- Reports an event. -/
def report (e : Event) : StateM Session Unit :=
  modify fun s ↦ { s with events := s.events.push e }

/-- Adds a node, after a report of each child that it cannot have. -/
def add (span : Span) (draft : Draft) : StateM Session Handle := fun s ↦
  let (node, arena) := s.arena.add span draft
  let reports := (s.arena.refused draft).map fun child ↦ Event.refusedChild child s.arena.size
  (node, ⟨arena, s.events ++ reports.toArray⟩)

end Session

namespace Lowering

open Json (field? textField? flag)

/-- The offset that a field gives, if it is an integer of 32 bits. -/
def offset? (v : Option Json) : Option UInt32 :=
  match v.bind Json.nat? with
  | some n => if n < UInt32.size then some (.ofNat n) else none
  | none => none

/-- The span between two offsets, if both are there. -/
def spanBetween? (start stop : Option Json) : Option Span :=
  match offset? start, offset? stop with
  | some start, some stop => some ⟨start, stop⟩
  | _, _ => none

/-- The span in a field `range` of exactly two offsets. -/
def range? : Option Json → Option Span
  | some (.array [start, stop]) => spanBetween? (some start) (some stop)
  | _ => none

/-- The span of a node: from `start` to `end`, or else its `range`, or else nowhere. -/
def spanOf (fields : List (String × Json)) : Span :=
  match spanBetween? (field? "start" fields) (field? "end" fields) with
  | some span => span
  | none => (range? (field? "range" fields)).getD .nowhere

/-- The text of a literal: the string `raw`, or else the compact text of `value`, if there is
one. -/
def rawOf (fields : List (String × Json)) : String :=
  match textField? "raw" fields with
  | some raw => raw
  | none => ((field? "value" fields).map Json.write).getD ""

/-- The type of a JSON value that may be the root of a tree. -/
def rootType : Json → Except Rejection String
  | .object fields =>
    match textField? "type" fields with
    | some type => .ok type
    | none => .error .untyped
  | v => .error (.notObject v.sort)

mutual

/-- Stores a node and gives its handle. -/
def lower : Json → StateM Session Handle
  | .object fields =>
    match textField? "type" fields with
    | none => do
      Session.report .untypedNode
      Session.add (spanOf fields) (.foreign "")
    | some type =>
      match Kind.ofTypeName type with
      | .identifier =>
        match textField? "name" fields with
        | some name => Session.add (spanOf fields) (.identifier name)
        | none => do
          Session.report .namelessIdentifier
          Session.add (spanOf fields) (.foreign type)
      | .literal => Session.add (spanOf fields) (.literal (rawOf fields))
      | .arrayPattern => do
        let elements ← lowerList "elements" fields
        Session.add (spanOf fields) (.arrayPattern elements)
      | .objectPattern => do
        let entries ← lowerList "properties" fields
        Session.add (spanOf fields) (.objectPattern entries)
      | .property => do
        let key ← lowerField "key" fields
        let value ← lowerField "value" fields
        Session.add (spanOf fields)
          (.property ⟨key, value, flag "computed" fields, flag "shorthand" fields⟩)
      | .restElement => do
        let argument ← lowerField "argument" fields
        Session.add (spanOf fields) (.rest argument)
      | .assignmentPattern => do
        let left ← lowerField "left" fields
        let right ← lowerField "right" fields
        Session.add (spanOf fields) (.assignment ⟨left, right⟩)
      | .importDeclaration => do
        let specifiers ← lowerList "specifiers" fields
        let source ← lowerField "source" fields
        Session.add (spanOf fields) (.importing ⟨specifiers, source⟩)
      | .importSpecifier => do
        let imported ← lowerField "imported" fields
        let localName ← lowerField "local" fields
        Session.add (spanOf fields) (.specifier .named ⟨imported, localName⟩)
      | .importDefaultSpecifier => do
        let localName ← lowerField "local" fields
        Session.add (spanOf fields) (.specifier .defaultExport ⟨.absent, localName⟩)
      | .importNamespaceSpecifier => do
        let localName ← lowerField "local" fields
        Session.add (spanOf fields) (.specifier .wholeModule ⟨.absent, localName⟩)
      | .unknown => do
        Session.report (.foreignNode type)
        Session.add (spanOf fields) (.foreign type)
  | v => do
    Session.report (.notNode v.sort)
    Session.add .nowhere (.foreign "")

/-- Stores the child in a field. A field that is missing or `null` gives none. -/
def lowerField (key : String) : List (String × Json) → StateM Session Handle
  | [] => pure .absent
  | (k, v) :: rest =>
    if k = key then (if v.isNull then pure .absent else lower v) else lowerField key rest

/-- Stores the children in a field that is a list, and none for any other field. -/
def lowerList (key : String) : List (String × Json) → StateM Session (List Handle)
  | [] => pure []
  | (k, v) :: rest =>
    if k = key then
      match v with
      | .array items => lowerItems items
      | _ => pure []
    else lowerList key rest

/-- Stores the items of a list from left to right. An item that is `null` leaves a hole. -/
def lowerItems : List Json → StateM Session (List Handle)
  | [] => pure []
  | v :: rest => do
    let head ← if v.isNull then pure .absent else lower v
    let tail ← lowerItems rest
    return head :: tail

end

end Lowering

end BoundNames

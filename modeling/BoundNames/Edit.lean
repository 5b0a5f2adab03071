import BoundNames.Lowering

/-!
# Edits

The ways in which an arena grows, as data: a node is added, a pattern or a specifier is added by its
kind, a JSON value is lowered, or all nodes are taken away. A run of edits is a list of them.
-/

set_option autoImplicit false
set_option relaxedAutoImplicit false

namespace BoundNames

/-- One change of an arena. -/
inductive Edit where
  | add (span : Span) (draft : Draft)
  | pattern (kind : Kind) (span : Span) (elements : List Handle)
  | specifier (kind : Kind) (span : Span) (data : Specifier)
  | lower (v : Json)
  | clear

namespace Edit

/-- What comes of an edit: the handle of a new node, a kind that does not go with its data, in which
case nothing changes, or an arena without nodes. -/
inductive Outcome where
  | node (h : Handle)
  | refused (cause : Misuse)
  | cleared
deriving DecidableEq

/-- Adds a draft if its kind goes with its data. -/
def addChecked (span : Span) : Except Misuse Draft → StateM Session Outcome
  | .ok draft => return .node (← Session.add span draft)
  | .error cause => return .refused cause

/-- Carries out an edit. -/
def apply : Edit → StateM Session Outcome
  | add span draft => return .node (← Session.add span draft)
  | pattern kind span elements => addChecked span (Draft.patternOf kind elements)
  | specifier kind span data => addChecked span (Draft.specifierOf kind data)
  | lower v => return .node (← Lowering.lower v)
  | clear => do
    modify fun s ↦ { s with arena := s.arena.clear }
    return .cleared

/-- Carries out edits one after the other, and gives what comes of each. -/
def applyAll (edits : List Edit) : StateM Session (List Outcome) :=
  edits.mapM apply

end Edit

end BoundNames

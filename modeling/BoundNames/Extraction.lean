import BoundNames.Lowering
import BoundNames.Walk

/-!
# Extraction

From the JSON of a binding position to the names it binds: the tree is lowered into an arena of its
own, and the arena is walked from the root.
-/

set_option autoImplicit false
set_option relaxedAutoImplicit false

namespace BoundNames

/-- A value with the events that were reported on the way to it. -/
structure Traced (α : Type) where
  value : α
  events : Array Event

namespace Extraction

/-- The arena of a tree and the handle of its root. A root that is rejected reports nothing. -/
def tree (v : Json) : Traced (Except Rejection (Arena × Handle)) :=
  match Lowering.rootType v with
  | .error e => ⟨.error e, #[]⟩
  | .ok _ =>
    let (root, s) := (Lowering.lower v).run { arena := .prepared }
    ⟨.ok (s.arena, root), s.events.push (.lowered s.arena.size root)⟩

/-- The arena of a tree and the identifiers that the tree binds. -/
def identifiers (v : Json) : Traced (Except Rejection (Arena × Array Handle)) :=
  let lowered := tree v
  match lowered.value with
  | .error e => ⟨.error e, lowered.events⟩
  | .ok (arena, root) =>
    let (outcome, t) := arena.walk root { events := lowered.events }
    ⟨outcome.map fun _ ↦ (arena, t.found), t.events⟩

/-- The names that a tree binds. -/
def names (v : Json) : Traced (Except Rejection (List String)) :=
  let extracted := identifiers v
  ⟨extracted.value.map fun (arena, handles) ↦ arena.namesOf handles, extracted.events⟩

/-- Lowers values one after the other into one arena, and gives the handle of each. -/
def forest (values : List Json) : List Handle × Arena :=
  let (roots, s) := (values.mapM Lowering.lower).run { arena := .prepared }
  (roots, s.arena)

end Extraction

end BoundNames

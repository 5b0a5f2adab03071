import BoundNames.Arena.Access
import BoundNames.Event

/-!
# Walking a pattern

The identifiers that a pattern binds, from left to right and from the outside in. The root must be a
node; below it whatever cannot bind a name binds none.

One visit of a node takes a list of steps: to collect the node, to visit a child, to report that it
binds nothing (`Arena.steps`). Nothing in an arena rules out that a walk comes back to a node it is
in, so a walk has a budget for visits that lie within each other. Such visits are of different nodes
as long as the walk comes to an end, hence the number of nodes, and one more visit that meets no
node, is budget enough for every walk that has an end.
-/

set_option autoImplicit false
set_option relaxedAutoImplicit false

namespace BoundNames

/-- The identifiers that were collected and the events that were reported. -/
structure Trail where
  found : Array Handle := #[]
  events : Array Event := #[]
deriving DecidableEq

namespace Trail

/-- Collects an identifier. -/
def collect (t : Trail) (node : Handle) : Trail :=
  { t with found := t.found.push node }

/-- Reports an event. -/
def report (t : Trail) (e : Event) : Trail :=
  { t with events := t.events.push e }

end Trail

/-- A step of a visit: the identifier at a handle is bound, a child is visited, or there is
something to report. -/
inductive Step where
  | bind (node : Handle)
  | visit (child : Handle)
  | report (e : Event)
deriving DecidableEq

namespace Arena

/-- The node that a visit is about: the argument in place of a rest element, the node itself
otherwise. -/
def subject? (a : Arena) (h : Handle) : Option (Handle × Header) :=
  match a.header? h with
  | none => none
  | some n =>
    match a.pools.rest? n with
    | none => some (h, n)
    | some argument => (a.header? argument).map fun m ↦ (argument, m)

/-- The steps for an entry of an object pattern: a property binds what its value binds, and a rest
element is visited itself. -/
def entrySteps (a : Arena) (entry : Handle) : List Step :=
  match a.header? entry with
  | none => []
  | some n =>
    match a.pools.shape? n with
    | some (.property data) => [.visit data.value]
    | some (.rest _) => [.visit entry]
    | _ => [.report (.notAnEntry entry (a.pools.typeName n))]

/-- The steps for a node that is not seen through: an identifier is bound, holes are passed over, a
default, a key, an imported name and the source of an import bind nothing. -/
def stepsAt (a : Arena) (node : Handle) (n : Header) : List Step :=
  match a.pools.shape? n with
  | some (.identifier _) => [.bind node]
  | some (.arrayPattern elements) =>
    (elements.filter fun element ↦ !element.isAbsent).map .visit
  | some (.objectPattern entries) => entries.flatMap a.entrySteps
  | some (.assignment data) => [.visit data.left]
  | some (.importing data) => data.specifiers.map .visit
  | some (.specifier _ data) => [.visit data.localName]
  | _ => [.report (.noBindings node (a.pools.typeName n))]

/-- The steps of a visit. -/
def steps (a : Arena) (h : Handle) : List Step :=
  match a.subject? h with
  | none => []
  | some (node, n) => a.stepsAt node n

/-- Visits a node and goes on along a trail, or gives nothing if the visits within each other exceed
the budget. -/
def visit (a : Arena) : Nat → Handle → Trail → Option Trail
  | 0, _, _ => none
  | budget + 1, h, t =>
    (a.steps h).foldlM (fun t step ↦
      match step with
      | .bind node => some (t.collect node)
      | .visit child => a.visit budget child t
      | .report e => some (t.report e)) t

/-- Whether a handle may be the root of a walk. -/
def checkRoot (a : Arena) (root : Handle) : Except Rejection Unit :=
  if root.isAbsent then .error .absent
  else if (a.header? root).isNone then .error (.dangling root a.size)
  else .ok ()

/-- Walks from a root and goes on along a trail. A root that is rejected collects nothing. -/
def walk (a : Arena) (root : Handle) (t : Trail) : Except Rejection Unit × Trail :=
  let t := t.report (.walking root)
  match a.checkRoot root with
  | .error e => (.error e, t)
  | .ok () =>
    match a.visit (a.size + 1) root t with
    | none => (.error (.endless root), t)
    | some u => (.ok (), u.report (.collected (u.found.size - t.found.size)))

/-- Adds the identifiers bound under a root to those that a caller keeps. A root that is rejected
adds none. -/
def collectInto (a : Arena) (root : Handle) (kept : Array Handle) :
    Except Rejection Unit × Array Handle :=
  let (outcome, t) := a.walk root { found := kept }
  (outcome, t.found)

/-- The identifiers bound under a root, after those that are given. -/
def boundInto (a : Arena) (root : Handle) (into : Array Handle) :
    Except Rejection (Array Handle) :=
  let (outcome, t) := a.walk root { found := into }
  outcome.map fun _ ↦ t.found

/-- The identifiers bound under a root. -/
def bound (a : Arena) (root : Handle) : Except Rejection (Array Handle) :=
  a.boundInto root #[]

/-- The names of those handles that are identifiers. -/
def namesOf (a : Arena) (handles : Array Handle) : List String :=
  handles.toList.filterMap a.name?

/-- The names bound under a root. -/
def boundNames (a : Arena) (root : Handle) : Except Rejection (List String) :=
  (a.bound root).map a.namesOf

end Arena

end BoundNames

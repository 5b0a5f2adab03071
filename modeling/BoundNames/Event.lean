import BoundNames.Handle
import BoundNames.Json.Basic

/-!
# Events and rejections

What is reported while trees are lowered, arenas are built and patterns are walked, each event with
its level, the part of the library it comes from, a message and named fields; and why a root is
rejected. Only the root of a tree is checked: what is malformed below it binds nothing and is no
error.
-/

set_option autoImplicit false
set_option relaxedAutoImplicit false

namespace BoundNames

/-- How much an event matters, from the gravest to the most detailed. -/
inductive Level where
  | error
  | warn
  | info
  | debug
  | trace
deriving DecidableEq

/-- The rank of a level: the more detailed, the higher. -/
def Level.rank : Level → Nat
  | error => 1
  | warn => 2
  | info => 3
  | debug => 4
  | trace => 5

/-- A report. The first four say why a foreign node stands for a JSON value, `refusedChild` that a
child does not precede its parent, `lowered` what came of a whole tree; `walking` opens a walk and
`collected` closes it, and between them `noBindings` and `notAnEntry` name nodes that bind nothing;
`alreadyInstalled` says that logging was set up before. -/
inductive Event where
  | notNode (found : String)
  | untypedNode
  | namelessIdentifier
  | foreignNode (typeName : String)
  | refusedChild (child : Handle) (size : Nat)
  | lowered (nodes : Nat) (root : Handle)
  | walking (root : Handle)
  | noBindings (node : Handle) (typeName : String)
  | notAnEntry (node : Handle) (typeName : String)
  | collected (found : Nat)
  | alreadyInstalled
deriving DecidableEq

namespace Event

/-- The level of an event. -/
def level : Event → Level
  | notNode _ | untypedNode | namelessIdentifier | foreignNode _ | noBindings .. | notAnEntry .. =>
    .trace
  | refusedChild .. | lowered .. | walking _ | collected _ | alreadyInstalled => .debug

/-- The part of the library that an event comes from. -/
def source : Event → String
  | notNode _ | untypedNode | namelessIdentifier | foreignNode _ | lowered .. =>
    "bindscan_ast::estree"
  | refusedChild .. => "bindscan_ast::node_arena"
  | walking _ | noBindings .. | notAnEntry .. | collected _ => "bindscan_binder::pattern_walker"
  | alreadyInstalled => "bindscan::tracing_config"

/-- Whether an event opens a stretch of work and is not a line of its own. -/
def isSpan : Event → Bool
  | walking _ => true
  | _ => false

/-- Whether an event is the last one within a span. -/
def closesSpan : Event → Bool
  | collected _ => true
  | _ => false

/-- What an event says. -/
def message : Event → String
  | notNode _ => "non-object in node position"
  | untypedNode => "object without a type in node position"
  | namelessIdentifier => "identifier without a name"
  | foreignNode _ => "opaque node"
  | refusedChild .. => "dropping child handle that does not precede its parent"
  | lowered .. => "lowered ESTree tree"
  | walking _ => "walk"
  | noBindings .. => "no bindings under node"
  | notAnEntry .. => "not an object-pattern entry"
  | collected _ => "collected assigned identifiers"
  | alreadyInstalled => "global tracing subscriber already installed"

/-- The named values of an event. -/
def fields : Event → List (String × Json)
  | notNode found => [("found", found)]
  | untypedNode | namelessIdentifier | alreadyInstalled => []
  | foreignNode typeName => [("type_name", typeName)]
  | refusedChild child size => [("child", .ofNat child.toNat), ("len", .ofNat size)]
  | lowered nodes root => [("nodes", .ofNat nodes), ("root", .ofNat root.toNat)]
  | walking root => [("root", .ofNat root.toNat)]
  | noBindings node typeName => [("idx", .ofNat node.toNat), ("kind", typeName)]
  | notAnEntry node typeName => [("idx", .ofNat node.toNat), ("kind", typeName)]
  | collected found => [("found", .ofNat found)]

/-- The names of the fields of an event that is no span, its message among them. -/
def fieldNames (e : Event) : List String :=
  "message" :: e.fields.map Prod.fst

end Event

/-- Why no names can be collected under a root: a JSON root is no object, or an object without a
type; the handle of a root is absent, or names no node of its arena of `size` nodes; or patched data
lead a walk from the root back to a node it is in. -/
inductive Rejection where
  | notObject (found : String)
  | untyped
  | absent
  | dangling (root : Handle) (size : Nat)
  | endless (root : Handle)
deriving DecidableEq

/-- What is reported of a rejected root. -/
def Rejection.message : Rejection → String
  | notObject found => "bindscan: node must be object, got " ++ found
  | untyped => "bindscan: node must have a type"
  | absent => "bindscan: node must be object, got no node"
  | dangling root size =>
    "bindscan: node index " ++ toString root.toNat ++ " is out of bounds for an arena of "
      ++ toString size ++ " nodes"
  | endless root => "bindscan: the walk from node index " ++ toString root.toNat ++ " has no end"

end BoundNames

import BoundNames.Shape
import BoundNames.Symbol

/-!
# Arenas

An arena holds the nodes of its trees by position. A node is a small header, and what it says beside
its kind and span stands in the pool of its kind, at the slot that the header names. Beside the
headers stand the parents of the nodes, and a table of the names of identifiers. The span of a node
is a half-open range of character offsets in the source.

Nothing ties the parts together in the type: an arena may be patched into a state in which a header
names a slot that its pool does not have, or in which a child does not precede its parent.
-/

set_option autoImplicit false
set_option relaxedAutoImplicit false

namespace BoundNames

/-- The offsets from `start` up to and without `stop`. -/
structure Span where
  start : UInt32
  stop : UInt32
deriving DecidableEq

namespace Span

/-- The span of a node whose producer gave no place. -/
def nowhere : Span := ⟨0, 0⟩

instance : Inhabited Span := ⟨nowhere⟩

/-- The number of offsets in a span. -/
def length (s : Span) : UInt32 :=
  if s.start ≤ s.stop then s.stop - s.start else 0

/-- Whether a span holds no offset. -/
def isEmpty (s : Span) : Bool :=
  s.stop ≤ s.start

/-- The length is the difference of the ends, cut off at zero. -/
theorem toNat_length (s : Span) : s.length.toNat = s.stop.toNat - s.start.toNat := by
  unfold length
  split
  · next h => rw [UInt32.toNat_sub_of_le _ _ h]
  · next h =>
    have : s.stop.toNat < s.start.toNat := UInt32.lt_iff_toNat_lt.1 (UInt32.not_le.1 h)
    simp; omega

end Span

/-- What an arena keeps of a node at its position. -/
structure Header where
  kind : Kind
  span : Span
  slot : UInt32
deriving DecidableEq

namespace Header

/-- The slot of a node without data. -/
def noSlot : UInt32 := 0xFFFFFFFF

/-- Whether a header names a slot. -/
def hasData (n : Header) : Bool := n.slot ≠ noSlot

end Header

/-- The data of the nodes of an arena, one pool for each family of kinds. Array and object patterns
share a pool, and so do the three kinds of specifier. -/
structure Pools where
  identifiers : Array Symbol := #[]
  literals : Array String := #[]
  patterns : Array (List Handle) := #[]
  properties : Array Property := #[]
  rests : Array Handle := #[]
  assignments : Array Assignment := #[]
  imports : Array Import := #[]
  specifiers : Array Specifier := #[]
  foreigns : Array String := #[]
deriving DecidableEq

/-- Nodes, their parents and data, and the names of identifiers. -/
structure Arena where
  headers : Array Header := #[]
  parents : Array Handle := #[]
  pools : Pools := {}
  symbols : SymbolTable := {}
deriving DecidableEq

namespace Arena

instance : Inhabited Arena := ⟨{}⟩

/-- The number of nodes. -/
def size (a : Arena) : Nat := a.headers.size

/-- Whether an arena has no nodes. -/
def isEmpty (a : Arena) : Bool := a.headers.isEmpty

/-- The arena without nodes whose table holds the common names. -/
def prepared : Arena :=
  { symbols := SymbolTable.internAll {} SymbolTable.commonNames }

end Arena

end BoundNames

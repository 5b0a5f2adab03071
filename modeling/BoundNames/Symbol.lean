/-!
# Symbols

An arena keeps each name once, in a table, and nodes refer to it by its place there. The table
starts with the empty name, so the first symbol doubles as the symbol of no name. Names are only
ever added at the end: a symbol keeps its name for as long as the table lives.
-/

set_option autoImplicit false
set_option relaxedAutoImplicit false

namespace BoundNames

/-- The place of a name in a table. -/
structure Symbol where
  word : UInt32
deriving DecidableEq

namespace Symbol

/-- The symbol of the empty name. -/
def empty : Symbol := ⟨0⟩

instance : Inhabited Symbol := ⟨empty⟩

instance : Ord Symbol := ⟨fun a b ↦ compare a.word b.word⟩

/-- The symbol at a place, with the high bits of the place cut off. -/
def ofNat (n : Nat) : Symbol := ⟨UInt32.ofNat n⟩

/-- The place of a symbol. -/
def toNat (s : Symbol) : Nat := s.word.toNat

/-- Whether a symbol is the one of the empty name. -/
def isEmpty (s : Symbol) : Bool := s = empty

end Symbol

/-- The names that have a symbol, each at its place. -/
structure SymbolTable where
  names : Array String := #[""]
deriving DecidableEq

namespace SymbolTable

instance : Inhabited SymbolTable := ⟨{}⟩

/-- The number of names, the empty one included. -/
def size (t : SymbolTable) : Nat := t.names.size

/-- Whether a table holds no name but the empty one. -/
def isEmpty (t : SymbolTable) : Bool := t.size ≤ 1

/-- The symbol of a name that the table holds. -/
def find? (t : SymbolTable) (name : String) : Option Symbol :=
  (t.names.toList.idxOf? name).map Symbol.ofNat

/-- The symbol of a name, which is added at the end if the table does not hold it yet. -/
def intern (t : SymbolTable) (name : String) : Symbol × SymbolTable :=
  match t.find? name with
  | some s => (s, t)
  | none => (Symbol.ofNat t.size, ⟨t.names.push name⟩)

theorem find?_eq_none_iff (t : SymbolTable) (name : String) :
    t.find? name = none ↔ name ∉ t.names := by
  simp [find?]

/-- Interning adds a name that is not there and changes nothing for one that is. -/
theorem names_intern (t : SymbolTable) (name : String) :
    (t.intern name).2.names = if name ∈ t.names then t.names else t.names.push name := by
  unfold intern
  split
  · next s h =>
    have hmem : name ∈ t.names := Decidable.byContradiction fun hn ↦ by
      rw [(find?_eq_none_iff t name).2 hn] at h
      exact absurd h (by simp)
    rw [if_pos hmem]
  · next h => rw [if_neg ((find?_eq_none_iff t name).1 h)]

/-- The name of a symbol, if the table has its place. -/
def name? (t : SymbolTable) (s : Symbol) : Option String :=
  t.names[s.toNat]?

/-- The name of a symbol, the empty name for one of another table. -/
def name (t : SymbolTable) (s : Symbol) : String :=
  (t.name? s).getD ""

/-- Interns a list of names in turn. -/
def internAll (t : SymbolTable) (names : List String) : SymbolTable :=
  names.foldl (fun t s ↦ (t.intern s).2) t

/-- Names that nearly every module binds. -/
def commonNames : List String :=
  ["default", "exports", "module", "require", "args", "rest", "props", "state", "options",
    "config", "value", "key", "index", "item", "err", "error", "result", "data", "i", "e"]

end SymbolTable

end BoundNames

import BoundNames.Arena.Build

/-!
# The pools of an arena

Nine pools hold the data of twelve kinds. Each kind has the pool of its family, and `payload?` reads
any pool as shapes of a kind, so that the nine can be reasoned about as one. A header reads the
payload of its kind at its slot (`shape?_eq_payload?`). Inserting a shape makes the pool of its
family longer by one entry (`count_insert`), puts the shape at the end of it
(`payload?_insert_self`) and leaves every entry that was there (`payload?_insert_of_lt`).
-/

set_option autoImplicit false
set_option relaxedAutoImplicit false

namespace BoundNames

/-- A pool of an arena, by the nodes whose data stand in it. -/
inductive Family where
  | identifiers
  | literals
  | patterns
  | properties
  | rests
  | assignments
  | imports
  | specifiers
  | foreigns
deriving DecidableEq

/-- All pools. -/
def Family.all : List Family :=
  [identifiers, literals, patterns, properties, rests, assignments, imports, specifiers, foreigns]

/-- The pool that nodes of a kind have their data in. -/
def Kind.family : Kind → Family
  | unknown => .foreigns
  | identifier => .identifiers
  | literal => .literals
  | arrayPattern | objectPattern => .patterns
  | property => .properties
  | restElement => .rests
  | assignmentPattern => .assignments
  | importDeclaration => .imports
  | importSpecifier | importDefaultSpecifier | importNamespaceSpecifier => .specifiers

namespace Pools

/-- The number of entries of a pool. -/
def count (p : Pools) : Family → Nat
  | .identifiers => p.identifiers.size
  | .literals => p.literals.size
  | .patterns => p.patterns.size
  | .properties => p.properties.size
  | .rests => p.rests.size
  | .assignments => p.assignments.size
  | .imports => p.imports.size
  | .specifiers => p.specifiers.size
  | .foreigns => p.foreigns.size

/-- The entry at a place of the pool of a kind, as the shape of a node of that kind. -/
def payload? (p : Pools) (k : Kind) (i : Nat) : Option (Shape Symbol) :=
  match k with
  | .unknown => p.foreigns[i]?.map .foreign
  | .identifier => p.identifiers[i]?.map .identifier
  | .literal => p.literals[i]?.map .literal
  | .arrayPattern => p.patterns[i]?.map .arrayPattern
  | .objectPattern => p.patterns[i]?.map .objectPattern
  | .property => p.properties[i]?.map .property
  | .restElement => p.rests[i]?.map .rest
  | .assignmentPattern => p.assignments[i]?.map .assignment
  | .importDeclaration => p.imports[i]?.map .importing
  | .importSpecifier => p.specifiers[i]?.map (.specifier .named)
  | .importDefaultSpecifier => p.specifiers[i]?.map (.specifier .defaultExport)
  | .importNamespaceSpecifier => p.specifiers[i]?.map (.specifier .wholeModule)

/-- A header with data reads the entry at its slot, in the pool of its kind. -/
theorem shape?_eq_payload? (p : Pools) (n : Header) :
    p.shape? n = if n.hasData then p.payload? n.kind n.slot.toNat else none := by
  obtain ⟨kind, span, slot⟩ := n
  by_cases hdata : (Header.mk kind span slot).hasData = true <;> cases kind <;>
    simp [shape?, payload?, identifier?, literal?, pattern?, property?, rest?, assignment?,
      importing?, specifier?, foreign?, fetch, Kind.isBindingPattern, Kind.isImportSpecifier, hdata]

theorem payload?_eq_none_iff (p : Pools) (k : Kind) (i : Nat) :
    p.payload? k i = none ↔ p.count k.family ≤ i := by
  cases k <;> simp [payload?, count, Kind.family]

theorem kind_of_payload? {p : Pools} {k : Kind} {i : Nat} {s : Shape Symbol}
    (h : p.payload? k i = some s) : s.kind = k := by
  cases k <;> simp only [payload?, Option.map_eq_some_iff] at h <;> obtain ⟨_, _, rfl⟩ := h <;> rfl

/-- The shape that a header reads has the kind of the header. -/
theorem kind_of_shape? {p : Pools} {n : Header} {s : Shape Symbol} (h : p.shape? n = some s) :
    s.kind = n.kind := by
  rw [shape?_eq_payload?] at h
  split at h
  · exact kind_of_payload? h
  · cases h

/-- A header whose slot is the word for a place reads the entry at that place. The last word is no
slot. -/
theorem shape?_of_slot_eq (p : Pools) {n : Header} {i : Nat} (hi : i < UInt32.size - 1)
    (hslot : n.slot = .ofNat i) : p.shape? n = p.payload? n.kind i := by
  have hplace : n.slot.toNat = i := by
    rw [hslot]
    exact UInt32.toNat_ofNat_of_lt' (Nat.lt_of_lt_of_le hi (Nat.sub_le _ _))
  have hdata : n.hasData = true := by
    simp only [Header.hasData, ne_eq, decide_eq_true_eq]
    intro hno
    rw [hno] at hplace
    exact absurd hplace.symm (Nat.ne_of_lt hi)
  rw [shape?_eq_payload?, if_pos hdata, hplace]

/-- The getter of rest elements and the shape of a node never disagree. -/
theorem rest?_eq_some_iff (p : Pools) (n : Header) (argument : Handle) :
    p.rest? n = some argument ↔ p.shape? n = some (.rest argument) := by
  obtain ⟨kind, span, slot⟩ := n
  cases kind <;> simp [rest?, shape?, fetch]

/-! ### Inserting a shape -/

theorem fst_insert (p : Pools) (s : Shape Symbol) :
    (p.insert s).1 = .ofNat (p.count s.kind.family) := by
  cases s with
  | specifier form data => cases form <;> rfl
  | _ => rfl

/-- Inserting a shape adds one entry to the pool of its family and none to any other. -/
theorem count_insert (p : Pools) (s : Shape Symbol) (f : Family) :
    (p.insert s).2.count f = p.count f + if s.kind.family = f then 1 else 0 := by
  cases s with
  | specifier form data =>
    cases form <;> cases f <;> simp [insert, count, Shape.kind, SpecifierForm.kind, Kind.family]
  | _ => cases f <;> simp [insert, count, Shape.kind, Kind.family]

/-- Inserting a shape keeps every entry of every pool. -/
theorem payload?_insert_of_lt {p : Pools} {k : Kind} {i : Nat} (h : i < p.count k.family)
    (s : Shape Symbol) : (p.insert s).2.payload? k i = p.payload? k i := by
  cases k <;> simp only [count, Kind.family] at h <;> cases s <;>
    simp [insert, payload?, Array.getElem?_push, Nat.ne_of_lt h]

/-- The entry that follows those that were there is the shape. -/
theorem payload?_insert_self (p : Pools) (s : Shape Symbol) :
    (p.insert s).2.payload? s.kind (p.count s.kind.family) = some s := by
  cases s with
  | specifier form data =>
    cases form <;> simp [insert, payload?, count, Shape.kind, SpecifierForm.kind, Kind.family]
  | _ => simp [insert, payload?, count, Shape.kind, Kind.family]

theorem mem_identifiers_insert (p : Pools) (s : Shape Symbol) (symbol : Symbol) :
    symbol ∈ (p.insert s).2.identifiers ↔ symbol ∈ p.identifiers ∨ s = .identifier symbol := by
  cases s <;> simp [insert, eq_comm]

end Pools

end BoundNames

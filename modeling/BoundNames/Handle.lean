/-!
# Handles

A node of an arena is named by its position, a word of 32 bits. The greatest word names no node: it
stands for a hole of an array pattern and for a child that is missing.
-/

set_option autoImplicit false
set_option relaxedAutoImplicit false

namespace BoundNames

/-- The name of a node. -/
structure Handle where
  word : UInt32
deriving DecidableEq

namespace Handle

/-- The handle of no node. -/
def absent : Handle := ⟨0xFFFFFFFF⟩

instance : Inhabited Handle := ⟨absent⟩

instance : Ord Handle := ⟨fun a b ↦ compare a.word b.word⟩

instance : LT Handle := ⟨fun a b ↦ a.word < b.word⟩

instance (a b : Handle) : Decidable (a < b) := inferInstanceAs (Decidable (a.word < b.word))

/-- The handle of the node at position `n`, with the high bits of the position cut off. -/
def ofNat (n : Nat) : Handle := ⟨UInt32.ofNat n⟩

/-- The position that a handle names. -/
def toNat (h : Handle) : Nat := h.word.toNat

/-- Whether a handle is the one of no node. -/
def isAbsent (h : Handle) : Bool := h = absent

theorem toNat_ofNat (n : Nat) : (ofNat n).toNat = n % UInt32.size :=
  UInt32.toNat_ofNat'

theorem toNat_ofNat_of_lt {n : Nat} (h : n < UInt32.size) : (ofNat n).toNat = n := by
  rw [toNat_ofNat, Nat.mod_eq_of_lt h]

theorem toNat_lt (h : Handle) : h.toNat < UInt32.size :=
  h.word.toNat_lt

theorem lt_iff_toNat_lt {a b : Handle} : a < b ↔ a.toNat < b.toNat :=
  UInt32.lt_iff_toNat_lt

theorem toNat_absent : absent.toNat = UInt32.size - 1 := rfl

theorem toNat_inj {a b : Handle} : a.toNat = b.toNat ↔ a = b := by
  cases a; cases b; simp [toNat, UInt32.toNat_inj]

theorem isAbsent_iff {h : Handle} : h.isAbsent = true ↔ h = absent := by
  simp [isAbsent]

/-- Every handle but the absent one is that of a position before the last word. -/
theorem ne_absent_iff {h : Handle} : h ≠ absent ↔ h.toNat < UInt32.size - 1 := by
  have hlt := h.toNat_lt
  rw [ne_eq, ← toNat_inj, toNat_absent]
  omega

theorem ofNat_toNat (h : Handle) : ofNat h.toNat = h := by
  rw [← toNat_inj, toNat_ofNat_of_lt h.toNat_lt]

end Handle

end BoundNames

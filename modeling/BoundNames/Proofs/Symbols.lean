import BoundNames.Symbol

/-!
# Interned names

Interning gives a symbol for a place at which the table then has the name (`exists_place_intern`),
and the names that were there keep their places (`names_isPrefix_intern`). A symbol is a word of 32
bits, so it stands for its place as long as the table is not larger than the number of words.
-/

set_option autoImplicit false
set_option relaxedAutoImplicit false

namespace BoundNames

theorem Symbol.toNat_ofNat (n : Nat) : (Symbol.ofNat n).toNat = n % UInt32.size :=
  UInt32.toNat_ofNat'

theorem Symbol.toNat_ofNat_le (n : Nat) : (Symbol.ofNat n).toNat ≤ n := by
  rw [Symbol.toNat_ofNat]
  exact Nat.mod_le n UInt32.size

namespace SymbolTable

/-- The table after interning has the name at the place that the symbol is made from. -/
theorem exists_place_intern (t : SymbolTable) (name : String) :
    ∃ i, (t.intern name).1 = Symbol.ofNat i ∧ (t.intern name).2.names[i]? = some name := by
  unfold intern
  split
  · next s hfind =>
    obtain ⟨i, hi, rfl⟩ := Option.map_eq_some_iff.1 hfind
    obtain ⟨hlt, hname, -⟩ := List.idxOf?_eq_some_iff.1 hi
    refine ⟨i, rfl, ?_⟩
    rw [← Array.getElem?_toList, List.getElem?_eq_getElem hlt, hname]
  · exact ⟨t.size, rfl, by simp [size]⟩

/-- A name keeps its place when another is interned. -/
theorem names_isPrefix_intern (t : SymbolTable) (name : String) :
    t.names.toList <+: (t.intern name).2.names.toList := by
  rw [names_intern]
  split
  · exact List.prefix_refl _
  · rw [Array.toList_push]
    exact List.prefix_append _ _

theorem size_intern_le (t : SymbolTable) (name : String) :
    (t.intern name).2.size ≤ t.size + 1 := by
  simp only [size, names_intern]
  split
  · exact Nat.le_succ _
  · simp

theorem size_internAll_le (t : SymbolTable) (names : List String) :
    (t.internAll names).size ≤ t.size + names.length := by
  unfold internAll
  induction names generalizing t with
  | nil => exact Nat.le_refl _
  | cons name others ih =>
    have hhead := t.size_intern_le name
    have htail := ih (t.intern name).2
    rw [List.foldl_cons, List.length_cons]
    omega

theorem toNat_intern_lt (t : SymbolTable) (name : String) :
    (t.intern name).1.toNat < (t.intern name).2.size := by
  obtain ⟨i, hsymbol, hname⟩ := t.exists_place_intern name
  have hlt : i < (t.intern name).2.size := (Array.getElem?_eq_some_iff.1 hname).1
  rw [hsymbol]
  exact Nat.lt_of_le_of_lt (Symbol.toNat_ofNat_le i) hlt

/-- The symbol of an interned name stands for the name, if 32 bits can hold its place. -/
theorem name_intern {t : SymbolTable} {name : String}
    (h : (t.intern name).2.size ≤ UInt32.size) :
    (t.intern name).2.name (t.intern name).1 = name := by
  obtain ⟨i, hsymbol, hname⟩ := t.exists_place_intern name
  have hlt : i < (t.intern name).2.size := (Array.getElem?_eq_some_iff.1 hname).1
  have hplace : (t.intern name).1.toNat = i := by
    rw [hsymbol, Symbol.toNat_ofNat, Nat.mod_eq_of_lt (Nat.lt_of_lt_of_le hlt h)]
  simp [SymbolTable.name, name?, hplace, hname]

/-- A symbol of a table stands for the same name in every table that begins with its names. -/
theorem name_of_isPrefix {t u : SymbolTable} (h : t.names.toList <+: u.names.toList) {s : Symbol}
    (hs : s.toNat < t.size) : u.name s = t.name s := by
  have hplace : u.names[s.toNat]? = t.names[s.toNat]? := by
    obtain ⟨others, hothers⟩ := h
    rw [← Array.getElem?_toList, ← Array.getElem?_toList, ← hothers]
    exact List.getElem?_append_left (by simpa [size] using hs)
  simp [name, name?, hplace]

end SymbolTable

end BoundNames

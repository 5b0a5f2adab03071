/-!
# Texts

A text as the list of its characters, and three ways to take it apart: to take the blanks off both
ends, to divide it into the pieces between the places where a character stands, and to cut it at a
place that is given in bytes.

Blanks are the characters of the Unicode property `White_Space`. There is always one piece more than
there are places that divide, and pieces may be empty. A place in bytes is the number of UTF-8 bytes
before it; a text can be cut at the places between its characters, and at no place within one.
-/

set_option autoImplicit false
set_option relaxedAutoImplicit false

namespace BoundNames.Text

/-! ### Blanks -/

/-- The code points with the property `White_Space`, as closed ranges in increasing order. -/
def blankRanges : List (Nat × Nat) :=
  [(0x0009, 0x000D), (0x0020, 0x0020), (0x0085, 0x0085), (0x00A0, 0x00A0), (0x1680, 0x1680),
    (0x2000, 0x200A), (0x2028, 0x2029), (0x202F, 0x202F), (0x205F, 0x205F), (0x3000, 0x3000)]

/-- A blank is a character whose code point lies in one of the ranges. -/
def isBlank (c : Char) : Bool :=
  blankRanges.any fun r ↦ r.1 ≤ c.toNat && c.toNat ≤ r.2

/-- The characters without the blanks at either end. -/
def trimBlanks (cs : List Char) : List Char :=
  ((cs.dropWhile isBlank).reverse.dropWhile isBlank).reverse

/-- Every character that core counts as white space is a blank. -/
theorem isBlank_of_isWhitespace (c : Char) (h : c.isWhitespace = true) : isBlank c = true := by
  simp only [Char.isWhitespace, Bool.or_eq_true, decide_eq_true_eq] at h
  rcases h with ((rfl | rfl) | rfl) | rfl <;> decide

/-! ### Pieces -/

/-- The pieces between the occurrences of a character. -/
def pieces (mark : Char) : List Char → List (List Char)
  | [] => [[]]
  | c :: cs =>
    if c = mark then [] :: pieces mark cs
    else
      match pieces mark cs with
      | [] => [[c]]
      | piece :: others => (c :: piece) :: others

/-- There is one piece more than there are marks. -/
theorem length_pieces (mark : Char) (cs : List Char) :
    (pieces mark cs).length = cs.count mark + 1 := by
  induction cs with
  | nil => rfl
  | cons c cs ih =>
    rw [pieces]
    by_cases h : c = mark
    · subst h
      rw [if_pos rfl, List.length_cons, ih, List.count_cons_self]
    · rw [if_neg h, List.count_cons_of_ne h, ← ih]
      split
      · next hp => rw [hp] at ih; simp at ih
      · next hp => rw [hp]; simp

/-- No piece holds a mark. -/
theorem not_mem_of_mem_pieces (mark : Char) (cs : List Char) :
    ∀ piece ∈ pieces mark cs, mark ∉ piece := by
  induction cs with
  | nil => intro piece h; simp [pieces] at h; simp [h]
  | cons c cs ih =>
    intro piece h
    rw [pieces] at h
    split at h
    · rcases List.mem_cons.1 h with rfl | h
      · simp
      · exact ih piece h
    · next hc =>
      have hmark : mark ≠ c := fun e ↦ hc e.symm
      split at h
      · rcases List.mem_cons.1 h with rfl | h
        · simpa using hmark
        · simp at h
      · next head others hp =>
        rw [hp] at ih
        rcases List.mem_cons.1 h with rfl | h
        · simpa [hmark] using ih head List.mem_cons_self
        · exact ih piece (List.mem_cons_of_mem _ h)

/-! ### Places in bytes -/

/-- The number of bytes of a text. -/
def byteLength : List Char → Nat
  | [] => 0
  | c :: cs => c.utf8Size + byteLength cs

theorem byteLength_append (cs ds : List Char) :
    byteLength (cs ++ ds) = byteLength cs + byteLength ds := by
  induction cs with
  | nil => simp [byteLength]
  | cons c cs ih => rw [List.cons_append, byteLength, byteLength, ih, Nat.add_assoc]

/-- The text from a place on, if the place is between two characters. -/
def dropBytes? (n : Nat) : List Char → Option (List Char)
  | [] => if n = 0 then some [] else none
  | c :: cs =>
    if n = 0 then some (c :: cs)
    else if c.utf8Size ≤ n then dropBytes? (n - c.utf8Size) cs
    else none

/-- The text up to a place, if the place is between two characters. -/
def takeBytes? (n : Nat) : List Char → Option (List Char)
  | [] => if n = 0 then some [] else none
  | c :: cs =>
    if n = 0 then some []
    else if c.utf8Size ≤ n then (takeBytes? (n - c.utf8Size) cs).map (c :: ·)
    else none

/-- The `length` bytes from a place on, if they are characters. -/
def cut? (start length : Nat) (cs : List Char) : Option (List Char) :=
  (dropBytes? start cs).bind (takeBytes? length)

/-- A cut behind the first part of a text leaves the second. -/
theorem dropBytes?_byteLength (cs ds : List Char) :
    dropBytes? (byteLength cs) (cs ++ ds) = some ds := by
  induction cs with
  | nil => cases ds <;> simp [byteLength, dropBytes?]
  | cons c cs ih =>
    have hpos := c.utf8Size_pos
    rw [byteLength, List.cons_append, dropBytes?, if_neg (by omega), if_pos (by omega),
      Nat.add_sub_cancel_left, ih]

/-- A cut behind the first part of a text takes the first. -/
theorem takeBytes?_byteLength (cs ds : List Char) :
    takeBytes? (byteLength cs) (cs ++ ds) = some cs := by
  induction cs with
  | nil => cases ds <;> simp [byteLength, takeBytes?]
  | cons c cs ih =>
    have hpos := c.utf8Size_pos
    rw [byteLength, List.cons_append, takeBytes?, if_neg (by omega), if_pos (by omega),
      Nat.add_sub_cancel_left, ih, Option.map_some]

/-- The part between two others is cut out by its place and its length. -/
theorem cut?_byteLength (cs ds es : List Char) :
    cut? (byteLength cs) (byteLength ds) (cs ++ (ds ++ es)) = some ds := by
  rw [cut?, dropBytes?_byteLength, Option.bind_some, takeBytes?_byteLength]

end BoundNames.Text

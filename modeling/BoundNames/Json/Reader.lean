import BoundNames.Json.Numeral
import BoundNames.Json.Writer

/-!
# Reading JSON text

A reader for each form of value, over the list of characters that are left. What a reader returns
beside its value is a proper suffix in length, which bounds the recursion. A repeated field name
keeps its first place and takes its last value. A text that was written between quotes reads back as
it was (`read_quote`).
-/

set_option autoImplicit false
set_option relaxedAutoImplicit false

namespace BoundNames.Json

/-- Why a text is no JSON value: it stops too early, holds a character that cannot stand where it
does, names no Unicode character in an escape, writes a number beyond the range of binary64, or
nests arrays and objects too deep. -/
inductive ReadError where
  | unfinished
  | unexpected (found : Char)
  | badEscape
  | outOfRange
  | tooDeep
deriving DecidableEq

namespace Reader

/-- The characters that are left of `s` after at least one was read. -/
abbrev Rest (s : List Char) := { r : List Char // r.length < s.length }

/-- What is left of `t` is left of every longer list. -/
def Rest.widen {s t : List Char} (h : t.length ≤ s.length) (r : Rest t) : Rest s :=
  ⟨r.1, Nat.lt_of_lt_of_le r.2 h⟩

/-- The four characters that may stand between the parts of a text. -/
def isGap (c : Char) : Bool :=
  c = ' ' || c = '\t' || c = '\n' || c = '\r'

/-- The text without the gap in front of it. -/
def skipGap (s : List Char) : { r : List Char // r.length ≤ s.length } :=
  ⟨s.dropWhile isGap, (List.dropWhile_sublist isGap).length_le⟩

/-- The digits in front of a text, and what follows them. -/
def digits (s : List Char) : List Nat × { r : List Char // r.length ≤ s.length } :=
  ((s.takeWhile Char.isDigit).map fun c ↦ c.toNat - '0'.toNat,
    ⟨s.dropWhile Char.isDigit, (List.dropWhile_sublist Char.isDigit).length_le⟩)

/-- The error for a text that cannot go on as it does. -/
def stuck : List Char → ReadError
  | [] => .unfinished
  | c :: _ => .unexpected c

/-- One or more digits. -/
def someDigits (s : List Char) : Except ReadError (List Nat × Rest s) :=
  match s with
  | [] => .error .unfinished
  | c :: t =>
    if c.isDigit then
      let (ds, r) := digits t
      .ok ((c.toNat - '0'.toNat) :: ds, ⟨r.1, Nat.lt_succ_of_le r.2⟩)
    else .error (.unexpected c)

/-- The whole part of a numeral: a zero alone, or digits that do not start with zero. -/
def wholePart (s : List Char) : Except ReadError (List Nat × Rest s) :=
  match s with
  | '0' :: c :: t =>
    if c.isDigit then .error (.unexpected c)
    else .ok ([0], ⟨c :: t, by simp⟩)
  | t => someDigits t

/-- The fraction of a numeral, if a point starts one. -/
def fractionPart (s : List Char) :
    Except ReadError (Option (List Nat) × { r : List Char // r.length ≤ s.length }) :=
  match s with
  | '.' :: t => do
    let (ds, r) ← someDigits t
    return (some ds, ⟨r.1, Nat.le_succ_of_le (Nat.le_of_lt r.2)⟩)
  | t => .ok (none, ⟨t, Nat.le_refl _⟩)

/-- The sign in front of an exponent: whether it is a minus, and what follows it. -/
def exponentSign (s : List Char) : Bool × { r : List Char // r.length ≤ s.length } :=
  match s with
  | '-' :: t => (true, ⟨t, Nat.le_succ _⟩)
  | '+' :: t => (false, ⟨t, Nat.le_succ _⟩)
  | t => (false, ⟨t, Nat.le_refl _⟩)

/-- The exponent of a numeral, if a mark starts one. -/
def exponentPart (s : List Char) :
    Except ReadError (Option (Bool × List Nat) × { r : List Char // r.length ≤ s.length }) :=
  match s with
  | c :: t =>
    if c = 'e' ∨ c = 'E' then do
      let (minus, u) := exponentSign t
      let (ds, r) ← someDigits u.1
      return (some (minus, ds),
        ⟨r.1, Nat.le_succ_of_le (Nat.le_of_lt (Nat.lt_of_lt_of_le r.2 u.2))⟩)
    else .ok (none, ⟨c :: t, Nat.le_refl _⟩)
  | [] => .ok (none, ⟨[], Nat.le_refl _⟩)

/-- A numeral from its whole part on. -/
def numeral (negative : Bool) (s : List Char) : Except ReadError (Json × Rest s) := do
  let (whole, r₁) ← wholePart s
  let (fraction, r₂) ← fractionPart r₁.1
  let (exponent, r₃) ← exponentPart r₂.1
  match Numeral.value? ⟨negative, whole, fraction, exponent⟩ with
  | some x => return (.number x, ⟨r₃.1, Nat.lt_of_le_of_lt (Nat.le_trans r₃.2 r₂.2) r₁.2⟩)
  | none => .error .outOfRange

/-- The value of a hexadecimal digit. -/
def hexDigit? (c : Char) : Option Nat :=
  if c.isDigit then some (c.toNat - '0'.toNat)
  else if 'a' ≤ c ∧ c ≤ 'f' then some (c.toNat - 'a'.toNat + 10)
  else if 'A' ≤ c ∧ c ≤ 'F' then some (c.toNat - 'A'.toNat + 10)
  else none

/-- The number that four hexadecimal digits write. -/
def unit? (a b c d : Char) : Option Nat := do
  return (((← hexDigit? a) * 16 + (← hexDigit? b)) * 16 + (← hexDigit? c)) * 16 + (← hexDigit? d)

/-- The character at a code point that is no surrogate. -/
def scalar? (n : Nat) : Option Char :=
  if n.isValidChar then some (Char.ofNat n) else none

/-- The character of an escape, from the character after the backslash on. Two escapes that write a
surrogate pair are one character. -/
def escape (s : List Char) : Except ReadError (Char × Rest s) :=
  match s with
  | [] => .error .unfinished
  | '"' :: t => .ok ('"', ⟨t, Nat.lt_succ_self _⟩)
  | '\\' :: t => .ok ('\\', ⟨t, Nat.lt_succ_self _⟩)
  | '/' :: t => .ok ('/', ⟨t, Nat.lt_succ_self _⟩)
  | 'b' :: t => .ok ('\x08', ⟨t, Nat.lt_succ_self _⟩)
  | 'f' :: t => .ok ('\x0c', ⟨t, Nat.lt_succ_self _⟩)
  | 'n' :: t => .ok ('\n', ⟨t, Nat.lt_succ_self _⟩)
  | 'r' :: t => .ok ('\r', ⟨t, Nat.lt_succ_self _⟩)
  | 't' :: t => .ok ('\t', ⟨t, Nat.lt_succ_self _⟩)
  | 'u' :: a :: b :: c :: d :: t =>
    match unit? a b c d with
    | none => .error .badEscape
    | some high =>
      match scalar? high, t with
      | some x, v => .ok (x, ⟨v, by simp; omega⟩)
      | none, '\\' :: 'u' :: e :: f :: g :: h :: u =>
        match unit? e f g h with
        | none => .error .badEscape
        | some low =>
          if high < 0xDC00 ∧ 0xDC00 ≤ low ∧ low < 0xE000 then
            .ok (Char.ofNat (0x10000 + (high - 0xD800) * 0x400 + (low - 0xDC00)),
              ⟨u, by simp; omega⟩)
          else .error .badEscape
      | none, _ => .error .badEscape
  | c :: _ => .error (.unexpected c)

/-- The characters of a string up to its closing quote, after those `read` in reverse. -/
def stringTail (read : List Char) (s : List Char) : Except ReadError (String × Rest s) :=
  match s with
  | [] => .error .unfinished
  | c :: t =>
    if c = '"' then .ok (String.ofList read.reverse, ⟨t, Nat.lt_succ_self _⟩)
    else if c = '\\' then
      match escape t with
      | .error e => .error e
      | .ok (x, r) =>
        match stringTail (x :: read) r.1 with
        | .error e => .error e
        | .ok (text, u) => .ok (text, u.widen (Nat.le_succ_of_le (Nat.le_of_lt r.2)))
    else if c.toNat < 0x20 then .error (.unexpected c)
    else
      match stringTail (c :: read) t with
      | .error e => .error e
      | .ok (text, u) => .ok (text, u.widen (Nat.le_succ _))
termination_by s.length
decreasing_by
  · have := r.2; simp; omega
  · simp

/-- The name of a field with the colon after it. -/
def fieldName (s : List Char) : Except ReadError (String × Rest s) := do
  let g := skipGap s
  match h : g.1 with
  | '"' :: t =>
    let (name, r) ← stringTail [] t
    let u := skipGap r.1
    match hu : u.1 with
    | ':' :: v => return (name, ⟨v, by
        have h₁ := g.2; have h₂ := r.2; have h₃ := u.2
        rw [h] at h₁; rw [hu] at h₃; simp at h₁ h₃; omega⟩)
    | w => .error (stuck w)
  | w => .error (stuck w)

mutual

/-- The value in front of a text, with arrays and objects at most `room` deep. -/
def value (room : Nat) (s : List Char) : Except ReadError (Json × Rest s) :=
  match s with
  | [] => .error .unfinished
  | ' ' :: t => valueAfter room t
  | '\t' :: t => valueAfter room t
  | '\n' :: t => valueAfter room t
  | '\r' :: t => valueAfter room t
  | 'n' :: 'u' :: 'l' :: 'l' :: t => .ok (.null, ⟨t, by simp; omega⟩)
  | 't' :: 'r' :: 'u' :: 'e' :: t => .ok (.bool true, ⟨t, by simp; omega⟩)
  | 'f' :: 'a' :: 'l' :: 's' :: 'e' :: t => .ok (.bool false, ⟨t, by simp; omega⟩)
  | '"' :: t =>
    match stringTail [] t with
    | .error e => .error e
    | .ok (text, r) => .ok (.string text, r.widen (Nat.le_succ _))
  | '-' :: t =>
    match numeral true t with
    | .error e => .error e
    | .ok (x, r) => .ok (x, r.widen (Nat.le_succ _))
  | '[' :: t =>
    match room, h : (skipGap t).1 with
    | 0, _ => .error .tooDeep
    | _ + 1, ']' :: u => .ok (.array [], ⟨u, by
        have := (skipGap t).2; rw [h] at this; simp at this ⊢; omega⟩)
    | room + 1, _ =>
      match items room [] t with
      | .error e => .error e
      | .ok (x, r) => .ok (x, r.widen (Nat.le_succ _))
  | '\x7b' :: t =>
    match room, h : (skipGap t).1 with
    | 0, _ => .error .tooDeep
    | _ + 1, '\x7d' :: u => .ok (.object [], ⟨u, by
        have := (skipGap t).2; rw [h] at this; simp at this ⊢; omega⟩)
    | room + 1, _ =>
      match fields room [] t with
      | .error e => .error e
      | .ok (x, r) => .ok (x, r.widen (Nat.le_succ _))
  | c :: t => numeral false (c :: t)
termination_by (s.length, 0)

/-- The value in front of a text that follows one more character. -/
def valueAfter (room : Nat) {c : Char} (t : List Char) : Except ReadError (Json × Rest (c :: t)) :=
  match value room t with
  | .error e => .error e
  | .ok (x, r) => .ok (x, r.widen (Nat.le_succ _))
termination_by (t.length, 1)

/-- The items of an array up to its closing bracket, after those `read` in reverse. -/
def items (room : Nat) (read : List Json) (s : List Char) : Except ReadError (Json × Rest s) :=
  match value room s with
  | .error e => .error e
  | .ok (x, r) =>
    match h : (skipGap r.1).1 with
    | ',' :: t =>
      have small : t.length < s.length := by
        have h₁ := (skipGap r.1).2; have h₂ := r.2; rw [h] at h₁; simp at h₁; omega
      match items room (x :: read) t with
      | .error e => .error e
      | .ok (y, u) => .ok (y, u.widen (Nat.le_of_lt small))
    | ']' :: t => .ok (.array (x :: read).reverse, ⟨t, by
        have h₁ := (skipGap r.1).2; have h₂ := r.2; rw [h] at h₁; simp at h₁; omega⟩)
    | w => .error (stuck w)
termination_by (s.length, 1)

/-- The fields of an object up to its closing brace, added to those `read`. -/
def fields (room : Nat) (read : List (String × Json)) (s : List Char) :
    Except ReadError (Json × Rest s) :=
  match fieldName s with
  | .error e => .error e
  | .ok (name, q) =>
    have shorter := q.2
    match value room q.1 with
    | .error e => .error e
    | .ok (x, r) =>
      match h : (skipGap r.1).1 with
      | ',' :: t =>
        have small : t.length < s.length := by
          have h₁ := (skipGap r.1).2; have h₂ := r.2; rw [h] at h₁; simp at h₁; omega
        match fields room (insertField name x read) t with
        | .error e => .error e
        | .ok (y, u) => .ok (y, u.widen (Nat.le_of_lt small))
      | '\x7d' :: t => .ok (.object (insertField name x read), ⟨t, by
          have h₁ := (skipGap r.1).2; have h₂ := r.2; rw [h] at h₁; simp at h₁; omega⟩)
      | w => .error (stuck w)
termination_by (s.length, 1)

end

end Reader

/-- How deep arrays and objects may lie within each other. -/
def depthLimit : Nat := 127

/-- The value that a text writes. -/
def read (text : String) : Except ReadError Json := do
  let (v, r) ← Reader.value depthLimit text.toList
  match (Reader.skipGap r.1).1 with
  | [] => return v
  | c :: _ => .error (.unexpected c)

/-! ### Quoted texts read back -/

namespace Reader

/-- The two digits of a code point below U+0020 write it. -/
theorem unit?_hexDigit {n : Nat} (h : n < 0x20) :
    unit? '0' '0' (hexDigit (n / 16)) (hexDigit (n % 16)) = some n := by
  have hall : ∀ m : Fin 0x20, unit? '0' '0' (hexDigit (m / 16)) (hexDigit (m % 16)) = some m.1 := by
    decide
  exact hall ⟨n, h⟩

/-- A character is written as itself, or as an escape that reads back. -/
theorem escape_cases (c : Char) :
    (Json.escape c = [c] ∧ c ≠ '"' ∧ c ≠ '\\' ∧ ¬ c.toNat < 0x20) ∨
      ∃ e, Json.escape c = '\\' :: e ∧ ∀ t, ∃ h, escape (e ++ t) = .ok (c, ⟨t, h⟩) := by
  by_cases hletter : c ∈ ['"', '\\', '\x08', '\t', '\n', '\x0c', '\r']
  · right
    simp only [List.mem_cons, List.not_mem_nil, or_false] at hletter
    rcases hletter with rfl | rfl | rfl | rfl | rfl | rfl | rfl <;>
      exact ⟨_, rfl, fun t ↦ ⟨Nat.lt_succ_self _, rfl⟩⟩
  · simp only [List.mem_cons, List.not_mem_nil, or_false, not_or] at hletter
    by_cases hlow : c.toNat < 0x20
    · right
      refine ⟨['u', '0', '0', hexDigit (c.toNat / 16), hexDigit (c.toNat % 16)], ?_, fun t ↦ ?_⟩
      · simp [Json.escape, hletter, hlow]
      · refine ⟨by simp; omega, ?_⟩
        have hvalid : c.toNat.isValidChar := c.valid
        simp [escape, unit?_hexDigit hlow, scalar?, hvalid]
    · left
      simp [Json.escape, hletter, hlow]

/-- A written character in front of a string is the next that is read. -/
theorem stringTail_escape {read t u : List Char} {c : Char} {text : String} {hu}
    (h : stringTail (c :: read) t = .ok (text, ⟨u, hu⟩)) :
    ∃ hv, stringTail read (Json.escape c ++ t) = .ok (text, ⟨u, hv⟩) := by
  obtain ⟨hself, hquote, hslash, hlow⟩ | ⟨e, hescape, hback⟩ := escape_cases c
  · rw [hself, List.singleton_append, stringTail]
    simp only [if_neg hquote, if_neg hslash, if_neg hlow, h]
    exact ⟨Nat.lt_succ_of_lt hu, rfl⟩
  · obtain ⟨hsmall, hread⟩ := hback t
    rw [hescape, List.cons_append, stringTail, if_neg (by decide), if_pos rfl]
    simp only [hread, h]
    exact ⟨Nat.lt_succ_of_lt (Nat.lt_trans hu hsmall), rfl⟩

/-- The written characters of a string are read up to its closing quote. -/
theorem stringTail_flatMap_escape (cs read t : List Char) :
    ∃ h, stringTail read (cs.flatMap Json.escape ++ '"' :: t)
      = .ok (String.ofList (read.reverse ++ cs), ⟨t, h⟩) := by
  induction cs generalizing read with
  | nil =>
    rw [List.flatMap_nil, List.nil_append, stringTail, if_pos rfl, List.append_nil]
    exact ⟨_, rfl⟩
  | cons c cs ih =>
    obtain ⟨hsmall, htail⟩ := ih (c :: read)
    rw [List.reverse_cons, List.append_assoc, List.singleton_append] at htail
    rw [List.flatMap_cons, List.append_assoc]
    exact stringTail_escape htail

end Reader

/-- A quoted text reads back. -/
theorem read_quote (s : String) : read (quote s) = .ok (.string s) := by
  obtain ⟨hsmall, htail⟩ := Reader.stringTail_flatMap_escape s.toList [] []
  rw [List.reverse_nil, List.nil_append, String.ofList_toList] at htail
  have hvalue : ∃ h, Reader.value depthLimit (quote s).toList = .ok (.string s, ⟨[], h⟩) := by
    rw [quote, String.toList_ofList, List.cons_append]
    -- The recursion has no equation for this case alone, so all of them are unfolded.
    unfold Reader.value
    simp only [htail]
    exact ⟨Nat.zero_lt_succ _, rfl⟩
  obtain ⟨_, hvalue⟩ := hvalue
  rw [read, hvalue]
  rfl

example : quote "a\"\n\x1f/é" = "\"a\\\"\\n\\u001f/é\"" := by decide +kernel

end BoundNames.Json

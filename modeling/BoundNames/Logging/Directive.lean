import BoundNames.Event
import BoundNames.Text

/-!
# Directives of a log filter

A directive names a level, and may restrict it to the sources that start with a text, to a span, and
to what has a field. It is a level alone, or `source[span{field=value}]=level` in which every part
may be missing; where the level is missing all levels are meant. A piece of text that has neither
form is no directive.

The marks between the parts are found in the piece without the blanks around it, and each part is
then cut out of the whole piece at the places so found. Without blanks in front these are the parts
themselves (`parse?_source_level`); with blanks in front every part is shifted, and the directive
speaks of other names than the piece shows.
-/

set_option autoImplicit false
set_option relaxedAutoImplicit false

namespace BoundNames

/-- What is asked of the value of a field: nothing, to be a number, or to match a pattern. A pattern
is a matter of texts, so no number matches one. -/
inductive ValueTest where
  | any
  | number (n : Nat)
  | pattern (text : String)
deriving DecidableEq

/-- A field that must be there, and what is asked of its value. -/
structure FieldTest where
  name : String
  value : ValueTest
deriving DecidableEq

/-- A level, as the rank up to which events are written, for the sources that start with a text, for
a span and for a field. -/
structure Directive where
  source : String
  span : Option String
  field : Option FieldTest
  limit : Nat
deriving DecidableEq

namespace Directive

/-- The number that digits write, with or without a plus sign in front. -/
def number? (text : List Char) : Option Nat :=
  let digits := if text.head? = some '+' then text.tail else text
  if digits.isEmpty || !digits.all Char.isDigit then none
  else some (digits.foldl (fun n c ↦ n * 10 + (c.toNat - '0'.toNat)) 0)

/-- The rank that a level has by its name, in upper or lower case. -/
def named? (word : List Char) : Option Nat :=
  match String.ofList (word.map Char.toLower) with
  | "off" => some 0
  | "error" => some Level.error.rank
  | "warn" => some Level.warn.rank
  | "info" => some Level.info.rank
  | "debug" => some Level.debug.rank
  | "trace" => some Level.trace.rank
  | _ => none

/-- The rank of a level that is written as a number or by its name. -/
def rank? (word : List Char) : Option Nat :=
  match number? word with
  | some n => if n ≤ Level.trace.rank then some n else none
  | none => named? word

/-- The limit that stands behind a sign of equality, where nothing means all levels. -/
def limit? (word : List Char) : Option Nat :=
  if word.isEmpty then some Level.trace.rank else rank? word

/-- Whether a directive can start with a character: a letter, a digit or one of three marks. Beyond
ASCII all but blanks count as letters. -/
def canStart (c : Char) : Bool :=
  c.isAlphanum || c = '-' || c = ':' || c = '_' || (0x80 ≤ c.toNat && !Text.isBlank c)

/-- The value test that a text writes: a number of 64 bits or a pattern. -/
def valueTest (text : List Char) : ValueTest :=
  match number? text with
  | some n => if n < UInt64.size then .number n else .pattern (String.ofList text)
  | none => .pattern (String.ofList text)

/-- The field test `name` or `name=value`. -/
def fieldTest (text : List Char) : FieldTest :=
  match Text.pieces '=' text with
  | name :: value :: _ => ⟨String.ofList name, valueTest value⟩
  | _ => ⟨String.ofList text, .any⟩

/-- The limit that stands at a place of a piece, up to its end. -/
def limitAt? (piece : List Char) (place : Nat) : Option Nat :=
  (Text.dropBytes? place piece).bind limit?

/-- Reads what follows a closing bracket, from `place` on: a level behind its sign, or nothing. -/
def afterBracket? (piece : List Char) (place : Nat) (source : String) (span : Option String)
    (field : Option FieldTest) : List Char → Option Directive
  | [] => some ⟨source, span, field, Level.trace.rank⟩
  | c :: _ =>
    if c = '=' then (limitAt? piece (place + 1)).map fun limit ↦ ⟨source, span, field, limit⟩
    else none

/-- Reads what follows an opening bracket, from `place` on: the name of a span, a field in braces,
or both. -/
def afterOpening? (piece : List Char) (place : Nat) (source : String) (text : List Char) :
    Option Directive := do
  let stops := fun c : Char ↦ c = ']' || c = '\x7b'
  let nameLength := Text.byteLength (text.takeWhile fun c ↦ !stops c)
  let name := String.ofList (← Text.cut? place nameLength piece)
  match text.dropWhile fun c ↦ !stops c with
  | [] => none
  | c :: rest =>
    if c = ']' then afterBracket? piece (place + nameLength + 1) source (some name) none rest
    else
      let fieldPlace := place + nameLength + 1
      let fieldLength := Text.byteLength (rest.takeWhile fun c ↦ c ≠ '\x7d')
      let field ← Text.cut? fieldPlace fieldLength piece
      match rest.dropWhile fun c ↦ c ≠ '\x7d' with
      | _ :: ']' :: after =>
        if field.isEmpty then none
        else
          let span := if name.isEmpty then none else some name
          afterBracket? piece (fieldPlace + fieldLength + 2) source span
            (some (fieldTest field)) after
      | _ => none

/-- Reads one directive. -/
def parse? (piece : List Char) : Option Directive :=
  let text := Text.trimBlanks piece
  match text with
  | [] => none
  | '[' :: rest => afterOpening? piece 1 "" rest
  | c :: _ =>
    if !canStart c then none
    else
      let stops := fun c : Char ↦ c = '=' || c = '['
      let length := Text.byteLength (text.takeWhile fun c ↦ !stops c)
      match text.dropWhile fun c ↦ !stops c with
      | [] =>
        match rank? piece with
        | some limit => some ⟨"", none, none, limit⟩
        | none => some ⟨String.ofList piece, none, none, Level.trace.rank⟩
      | d :: rest => do
        let source := String.ofList (← Text.cut? 0 length piece)
        if d = '=' then
          let limit ← limitAt? piece (length + 1)
          return ⟨source, none, none, limit⟩
        else afterOpening? piece (length + 1) source rest

/-- A source and a level without blanks around them are read as they stand. -/
theorem parse?_source_level {source word : List Char} (hstart : source.head?.any canStart = true)
    (hmarks : ∀ c ∈ source, c ≠ '=' ∧ c ≠ '[')
    (htrim : Text.trimBlanks (source ++ '=' :: word) = source ++ '=' :: word) :
    parse? (source ++ '=' :: word)
      = (limit? word).map fun limit ↦ ⟨String.ofList source, none, none, limit⟩ := by
  have hpass : ∀ c ∈ source, (!(c = '=' || c = '[')) = true := by
    intro c hc
    simp [hmarks c hc]
  have htake : (source ++ '=' :: word).takeWhile (fun c ↦ !(c = '=' || c = '[')) = source := by
    rw [List.takeWhile_append_of_pos hpass]
    simp
  have hdrop : (source ++ '=' :: word).dropWhile (fun c ↦ !(c = '=' || c = '[')) = '=' :: word := by
    rw [List.dropWhile_append_of_pos hpass]
    simp
  have hsource : Text.cut? 0 (Text.byteLength source) (source ++ '=' :: word) = some source :=
    Text.cut?_byteLength [] source ('=' :: word)
  have hlevel : Text.dropBytes? (Text.byteLength source + 1) (source ++ '=' :: word)
      = some word := by
    have hplace := Text.dropBytes?_byteLength (source ++ ['=']) word
    rwa [Text.byteLength_append, List.append_assoc] at hplace
  unfold parse?
  simp only [htrim, htake, hdrop]
  cases source with
  | nil => simp at hstart
  | cons c tail =>
    rw [List.cons_append] at hsource hlevel ⊢
    simp only [hsource, limitAt?, hlevel, if_true, Option.bind_eq_bind, Option.bind_some,
      Option.map_eq_bind]
    split
    · next h => cases h
    · next h => exact absurd (List.cons.inj h).1 (hmarks c List.mem_cons_self).2
    · next d _ _ h =>
      obtain rfl : c = d := (List.cons.inj h).1
      have hc : canStart c = true := hstart
      rw [hc]
      rfl

example : parse? "engine=+04".toList = some ⟨"engine", none, none, 4⟩ := by decide +kernel

/-- Whether a directive decides by the source and the fields of an event alone. -/
def isPlain (d : Directive) : Bool :=
  d.span.isNone && d.field.all fun t ↦ t.value = .any

/-- Whether a directive is about what happens within a span. -/
def isScoped (d : Directive) : Bool :=
  d.span.isSome || d.field.isSome

/-- Whether two directives are about the same, so that the later one replaces the earlier. -/
def agrees (d e : Directive) : Bool :=
  d.source = e.source && d.span = e.span && d.field = e.field

/-- Whether the source of an event starts with the text of a directive. -/
def knows (d : Directive) (e : Event) : Bool :=
  d.source.toList.isPrefixOf e.source.toList

/-- Whether a plain directive applies: an event must have the field, a span need not. -/
def covers (d : Directive) (e : Event) : Bool :=
  d.knows e && (e.isSpan || d.field.all fun t ↦ e.fieldNames.contains t.name)

/-- Whether a scoped directive is about a span, by its source, its name and its fields. -/
def concerns (d : Directive) (span : Event) : Bool :=
  d.knows span && d.span.all (fun name ↦ name = span.message)
    && d.field.all fun t ↦ (span.fields.map Prod.fst).contains t.name

/-- Whether the fields of a span have the values that a directive asks for. -/
def fits (d : Directive) (span : Event) : Bool :=
  d.field.all fun t ↦
    match t.value with
    | .any => true
    | .number n => (Json.field? t.name span.fields).bind Json.nat? = some n
    | .pattern _ => false

/-- The name of the field that a directive asks for, empty if it asks for none. -/
def fieldName (d : Directive) : String :=
  (d.field.map FieldTest.name).getD ""

/-- Whether a plain directive goes before another one that covers the same: its source is longer, or
as long and its field comes later in alphabetical order, where no field comes first. -/
def outranks (d e : Directive) : Bool :=
  if d.source.length = e.source.length then e.fieldName < d.fieldName
  else e.source.length < d.source.length

end Directive

end BoundNames

import BoundNames.Proofs.Storing

/-!
# What the fields of an object say

The tree of an object is described by what stands in its fields, and not by the readers that are
used to lower it. An offset is an integer of 32 bits, and the span is that of `start` and `end`, or
else that of `range`; the text of a literal is the string `raw`, or else the text of `value`; a flag
is set by `true` alone; a child is what stands in its field unless that is `null`. Each reader gives
what the relation for it asks for and nothing else (`spanIn_iff`, `rawIn_iff`,
`Json.flag_eq_true_iff`). So the tree of any object has at its root what the fields of the object
say, with the trees of its child fields below (`shows_ofJson`).
-/

set_option autoImplicit false
set_option relaxedAutoImplicit false

namespace BoundNames

/-! ### Readers of fields -/

/-- A reader that gives what fits a description gives nothing where nothing fits. -/
theorem eq_none_iff_of_eq_some_iff {α : Type} {o : Option α} {fits : α → Prop}
    (h : ∀ x, o = some x ↔ fits x) : o = none ↔ ∀ x, ¬ fits x := by
  rw [Option.eq_none_iff_forall_ne_some]
  exact forall_congr' fun x ↦ not_congr (h x)

namespace Json

variable {fields : List (String × Json)} {key : String}

theorem text?_eq_some_iff {v : Json} {text : String} : v.text? = some text ↔ v = .string text := by
  cases v <;> simp [text?]

theorem nat?_eq_some_iff {v : Json} {n : Nat} : v.nat? = some n ↔ v = .ofNat n := by
  constructor
  · intro h
    unfold nat? at h
    split at h
    · obtain rfl := Option.some.inj h
      rfl
    · cases h
  · rintro rfl
    rfl

theorem textField?_eq_some_iff {text : String} :
    textField? key fields = some text ↔ field? key fields = some (.string text) := by
  rw [textField?, Option.bind_eq_some_iff]
  simp only [text?_eq_some_iff, exists_eq_right]

theorem textField?_eq_none_iff :
    textField? key fields = none ↔ ∀ text, field? key fields ≠ some (.string text) :=
  eq_none_iff_of_eq_some_iff fun _ ↦ textField?_eq_some_iff

/-- A flag is set by `true` and by no other value. -/
theorem flag_eq_true_iff : flag key fields = true ↔ field? key fields = some (.bool true) := by
  rw [flag]
  cases field? key fields with
  | none => simp
  | some v => cases v <;> simp [isTrue]

/-- The value in the place of a child: `null` is none. -/
def nonNull? (v : Json) : Option Json :=
  if v.isNull then none else some v

/-- The child in a field. -/
def childField (key : String) (fields : List (String × Json)) : Option Json :=
  (field? key fields).bind nonNull?

/-- The children in a field that is a list, with a hole for each `null`. -/
def childList (key : String) (fields : List (String × Json)) : List (Option Json) :=
  match field? key fields with
  | some (array items) => items.map nonNull?
  | _ => []

end Json

namespace Lowering

theorem offset?_eq_some_iff {v : Option Json} {offset : UInt32} :
    offset? v = some offset ↔ v = some (.ofNat offset.toNat) := by
  have hread : ∀ n, v.bind Json.nat? = some n ↔ v = some (.ofNat n) := by
    intro n
    rw [Option.bind_eq_some_iff]
    simp only [Json.nat?_eq_some_iff, exists_eq_right]
  constructor
  · intro h
    unfold offset? at h
    split at h
    · next n hn =>
      split at h
      · next hsize =>
        obtain rfl := Option.some.inj h
        rw [UInt32.toNat_ofNat_of_lt' hsize]
        exact (hread n).1 hn
      · cases h
    · cases h
  · intro h
    rw [offset?, (hread offset.toNat).2 h]
    dsimp only
    rw [if_pos offset.toNat_lt, UInt32.ofNat_toNat]

theorem spanBetween?_eq_some_iff {start stop : Option Json} {span : Span} :
    spanBetween? start stop = some span ↔
      start = some (.ofNat span.start.toNat) ∧ stop = some (.ofNat span.stop.toNat) := by
  rw [← offset?_eq_some_iff, ← offset?_eq_some_iff, spanBetween?]
  obtain ⟨first, last⟩ := span
  cases offset? start <;> cases offset? stop <;> simp

theorem range?_eq_some_iff {v : Option Json} {span : Span} :
    range? v = some span ↔
      v = some (.array [.ofNat span.start.toNat, .ofNat span.stop.toNat]) := by
  constructor
  · intro h
    unfold range? at h
    split at h
    · obtain ⟨hstart, hstop⟩ := spanBetween?_eq_some_iff.1 h
      rw [Option.some.inj hstart, Option.some.inj hstop]
    · cases h
  · rintro rfl
    exact spanBetween?_eq_some_iff.2 ⟨rfl, rfl⟩

end Lowering

/-! ### What the fields say -/

namespace Tree

open Json (field? childField childList nonNull?)
open Lowering (spanOf rawOf spanBetween? range? spanBetween?_eq_some_iff range?_eq_some_iff)

variable {fields : List (String × Json)}

/-- The field of a name is a text. -/
def TextIn (fields : List (String × Json)) (key text : String) : Prop :=
  field? key fields = some (.string text)

/-- The fields `start` and `end` are the offsets of a span. -/
def EndsIn (fields : List (String × Json)) (span : Span) : Prop :=
  field? "start" fields = some (.ofNat span.start.toNat) ∧
    field? "end" fields = some (.ofNat span.stop.toNat)

/-- The field `range` is the list of the two offsets of a span. -/
def RangeIn (fields : List (String × Json)) (span : Span) : Prop :=
  field? "range" fields = some (.array [.ofNat span.start.toNat, .ofNat span.stop.toNat])

/-- The span that fields give: `start` and `end`, or else `range`, or else nowhere. -/
inductive SpanIn (fields : List (String × Json)) : Span → Prop where
  | ends {span : Span} (h : EndsIn fields span) : SpanIn fields span
  | range {span : Span} (hends : ∀ other, ¬ EndsIn fields other) (h : RangeIn fields span) :
      SpanIn fields span
  | nowhere (hends : ∀ other, ¬ EndsIn fields other) (hrange : ∀ other, ¬ RangeIn fields other) :
      SpanIn fields .nowhere

/-- The text of a literal that fields give: the string `raw`, or else the compact text of `value`,
or else nothing. -/
inductive RawIn (fields : List (String × Json)) : String → Prop where
  | raw {text : String} (h : TextIn fields "raw" text) : RawIn fields text
  | value {v : Json} (hraw : ∀ text, ¬ TextIn fields "raw" text)
      (h : field? "value" fields = some v) : RawIn fields v.write
  | empty (hraw : ∀ text, ¬ TextIn fields "raw" text) (h : field? "value" fields = none) :
      RawIn fields ""

/-- The relation asks for the span that is read, and for no other. -/
theorem spanIn_iff {span : Span} : SpanIn fields span ↔ spanOf fields = span := by
  have hends : spanBetween? (field? "start" fields) (field? "end" fields) = none ↔
      ∀ other, ¬ EndsIn fields other :=
    eq_none_iff_of_eq_some_iff fun _ ↦ spanBetween?_eq_some_iff
  have hrange : range? (field? "range" fields) = none ↔ ∀ other, ¬ RangeIn fields other :=
    eq_none_iff_of_eq_some_iff fun _ ↦ range?_eq_some_iff
  constructor
  · intro h
    cases h with
    | ends h => rw [spanOf, spanBetween?_eq_some_iff.2 h]
    | range hother h => rw [spanOf, hends.2 hother, range?_eq_some_iff.2 h, Option.getD_some]
    | nowhere hother h => rw [spanOf, hends.2 hother, hrange.2 h, Option.getD_none]
  · rintro rfl
    rw [spanOf]
    split
    · next h => exact .ends (spanBetween?_eq_some_iff.1 h)
    · next hnone =>
      cases h : range? (field? "range" fields) with
      | some span => exact .range (hends.1 hnone) (range?_eq_some_iff.1 h)
      | none => exact .nowhere (hends.1 hnone) (hrange.1 h)

/-- The relation asks for the text that is read, and for no other. -/
theorem rawIn_iff {raw : String} : RawIn fields raw ↔ rawOf fields = raw := by
  constructor
  · intro h
    cases h with
    | raw h => rw [rawOf, Json.textField?_eq_some_iff.2 h]
    | value hraw h =>
      rw [rawOf, Json.textField?_eq_none_iff.2 hraw, h, Option.map_some, Option.getD_some]
    | empty hraw h =>
      rw [rawOf, Json.textField?_eq_none_iff.2 hraw, h, Option.map_none, Option.getD_none]
  · rintro rfl
    rw [rawOf]
    split
    · next h => exact .raw (Json.textField?_eq_some_iff.1 h)
    · next hnone =>
      have hraw := Json.textField?_eq_none_iff.1 hnone
      cases h : field? "value" fields with
      | some v => exact .value hraw h
      | none => exact .empty hraw h

/-! ### The nodes -/

theorem ofField_eq (key : String) (fields : List (String × Json)) :
    ofField key fields = (childField key fields).map ofJson := by
  induction fields with
  | nil => rfl
  | cons field others ih =>
    obtain ⟨k, v⟩ := field
    rw [ofField, childField, field?]
    by_cases hk : k = key
    · rw [if_pos hk, if_pos hk, Option.bind_some, nonNull?]
      split <;> rfl
    · rw [if_neg hk, if_neg hk]
      exact ih

theorem ofItems_eq (items : List Json) :
    ofItems items = (items.map nonNull?).map (Option.map ofJson) := by
  induction items with
  | nil => rfl
  | cons v others ih =>
    rw [ofItems, ih, List.map_cons, List.map_cons, nonNull?]
    split <;> rfl

theorem ofList_eq (key : String) (fields : List (String × Json)) :
    ofList key fields = (childList key fields).map (Option.map ofJson) := by
  induction fields with
  | nil => rfl
  | cons field others ih =>
    obtain ⟨k, v⟩ := field
    unfold ofList childList field?
    by_cases hk : k = key
    · rw [if_pos hk, if_pos hk]
      cases v with
      | array items => exact ofItems_eq items
      | _ => rfl
    · rw [if_neg hk, if_neg hk]
      exact ih

/-- A tree is the one that fields describe, but for the span of its root. A foreign node has no
type, is an identifier without a name, or has the type of no kind. -/
inductive DataIn (fields : List (String × Json)) : Tree → Prop where
  | identifier {span : Span} {name : String} (htype : TextIn fields "type" "Identifier")
      (hname : TextIn fields "name" name) : DataIn fields (.identifier span name)
  | literal {span : Span} {raw : String} (htype : TextIn fields "type" "Literal")
      (hraw : RawIn fields raw) : DataIn fields (.literal span raw)
  | arrayPattern {span : Span} (htype : TextIn fields "type" "ArrayPattern") :
      DataIn fields (.arrayPattern span ((childList "elements" fields).map (Option.map ofJson)))
  | objectPattern {span : Span} (htype : TextIn fields "type" "ObjectPattern") :
      DataIn fields (.objectPattern span ((childList "properties" fields).map (Option.map ofJson)))
  | property {span : Span} {computed shorthand : Bool} (htype : TextIn fields "type" "Property")
      (hcomputed : computed = true ↔ field? "computed" fields = some (.bool true))
      (hshorthand : shorthand = true ↔ field? "shorthand" fields = some (.bool true)) :
      DataIn fields (.property span ((childField "key" fields).map ofJson)
        ((childField "value" fields).map ofJson) computed shorthand)
  | rest {span : Span} (htype : TextIn fields "type" "RestElement") :
      DataIn fields (.rest span ((childField "argument" fields).map ofJson))
  | assignment {span : Span} (htype : TextIn fields "type" "AssignmentPattern") :
      DataIn fields (.assignment span ((childField "left" fields).map ofJson)
        ((childField "right" fields).map ofJson))
  | importing {span : Span} (htype : TextIn fields "type" "ImportDeclaration") :
      DataIn fields (.importing span ((childList "specifiers" fields).map (Option.map ofJson))
        ((childField "source" fields).map ofJson))
  | named {span : Span} (htype : TextIn fields "type" "ImportSpecifier") :
      DataIn fields (.specifier span .named ((childField "imported" fields).map ofJson)
        ((childField "local" fields).map ofJson))
  | defaultExport {span : Span} (htype : TextIn fields "type" "ImportDefaultSpecifier") :
      DataIn fields (.specifier span .defaultExport none ((childField "local" fields).map ofJson))
  | wholeModule {span : Span} (htype : TextIn fields "type" "ImportNamespaceSpecifier") :
      DataIn fields (.specifier span .wholeModule none ((childField "local" fields).map ofJson))
  | untyped {span : Span} (htype : ∀ type, ¬ TextIn fields "type" type) :
      DataIn fields (.foreign span "")
  | nameless {span : Span} (htype : TextIn fields "type" "Identifier")
      (hname : ∀ name, ¬ TextIn fields "name" name) : DataIn fields (.foreign span "Identifier")
  | unknown {span : Span} {type : String} (htype : TextIn fields "type" type)
      (hkind : ∀ kind : Kind, kind.typeName = type → kind = .unknown) :
      DataIn fields (.foreign span type)

/-- A tree is the one that fields describe. -/
structure Shows (fields : List (String × Json)) (t : Tree) : Prop where
  span : SpanIn fields t.span
  data : DataIn fields t

theorem span_ofJson (fields : List (String × Json)) :
    (ofJson (.object fields)).span = spanOf fields := by
  rw [ofJson]
  cases Json.textField? "type" fields with
  | none => rfl
  | some type =>
    dsimp only
    cases Kind.ofTypeName type with
    | identifier => cases Json.textField? "name" fields <;> rfl
    | _ => rfl

theorem dataIn_ofJson (fields : List (String × Json)) :
    DataIn fields (ofJson (.object fields)) := by
  rw [ofJson]
  cases htype : Json.textField? "type" fields with
  | none => exact .untyped (Json.textField?_eq_none_iff.1 htype)
  | some type =>
    have hin : TextIn fields "type" type := Json.textField?_eq_some_iff.1 htype
    have hrecognised : Kind.ofTypeName type ≠ .unknown → (Kind.ofTypeName type).typeName = type :=
      Kind.typeName_ofTypeName
    dsimp only
    cases hkind : Kind.ofTypeName type <;> rw [hkind] at hrecognised
    case unknown =>
      refine .unknown hin fun kind hother ↦ ?_
      rw [← hkind, ← hother, Kind.ofTypeName_typeName]
    -- In all other cases the type is that of the kind.
    all_goals obtain rfl := hrecognised (by decide)
    case identifier =>
      dsimp only
      cases hname : Json.textField? "name" fields with
      | none => exact .nameless hin (Json.textField?_eq_none_iff.1 hname)
      | some name => exact .identifier hin (Json.textField?_eq_some_iff.1 hname)
    case literal => exact .literal hin (rawIn_iff.2 rfl)
    all_goals simp only [ofField_eq, ofList_eq]
    case arrayPattern => exact .arrayPattern hin
    case objectPattern => exact .objectPattern hin
    case property => exact .property hin Json.flag_eq_true_iff Json.flag_eq_true_iff
    case restElement => exact .rest hin
    case assignmentPattern => exact .assignment hin
    case importDeclaration => exact .importing hin
    case importSpecifier => exact .named hin
    case importDefaultSpecifier => exact .defaultExport hin
    case importNamespaceSpecifier => exact .wholeModule hin

/-- The tree of an object is the one that its fields describe. -/
theorem shows_ofJson (fields : List (String × Json)) : Shows fields (ofJson (.object fields)) :=
  ⟨spanIn_iff.2 (span_ofJson fields).symm, dataIn_ofJson fields⟩

/-- What is no object has the tree of a foreign node without a type. -/
theorem ofJson_eq_foreign {v : Json} (h : ∀ fields, v ≠ .object fields) :
    ofJson v = .foreign .nowhere "" := by
  cases v with
  | object fields => exact absurd rfl (h fields)
  | _ => rfl

end Tree

end BoundNames

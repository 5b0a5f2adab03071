import BoundNames.Bindings
import Mathlib.Data.List.Forall2

/-!
# Lowering values that correspond

Two values may differ and yet be lowered to much the same. What is lowered of an object depends on
what its fields give under their names: texts, flags and a span (`Json.SameScalars`), the text of a
literal, children and lists of children. If two objects give the same scalars, and children and
lists that are lowered alike, then the objects are lowered alike (`lower_object`).

Alike is meant in a relation of sessions and one of lists of handles that the steps of lowering keep
(`Simulation`). Both may be equality, or they may leave out what is to make no difference.
`Related` says that steps lead from related sessions to related ones, with related results. Every
value is related to itself (`lower_related`), so where one part of a value is replaced, only that
part needs an argument (`Corresponds.within`, `Corresponds.item`).
-/

set_option autoImplicit false
set_option relaxedAutoImplicit false

namespace BoundNames

namespace Json

open Lowering (offset? spanBetween? range? spanOf rawOf)

/-- What a field gives if it is read as a text, as a flag and as an offset. -/
def scalars (field : Option Json) : Option String × Bool × Option UInt32 :=
  (field.bind text?, (field.map isTrue).getD false, offset? field)

/-- The texts and flags of two objects are the same, and so is the span. -/
structure SameScalars (fields fields' : List (String × Json)) : Prop where
  text (key : String) : textField? key fields = textField? key fields'
  flag (key : String) : flag key fields = flag key fields'
  span : spanOf fields = spanOf fields'

section Fields

theorem field?_append (key : String) (before after : List (String × Json)) :
    field? key (before ++ after) = (field? key before).or (field? key after) := by
  induction before with
  | nil => rfl
  | cons head before ih =>
    rw [List.cons_append, field?, field?]
    split
    · rfl
    · exact ih

theorem field?_replace_of_ne {key other : String} (h : other ≠ key)
    (before after : List (String × Json)) (v w : Json) :
    field? other (before ++ (key, w) :: after) = field? other (before ++ (key, v) :: after) := by
  rw [field?_append, field?_append, field?, field?, if_neg h.symm, if_neg h.symm]

variable {fields fields' : List (String × Json)}

/-- Objects that differ in one field have the same scalars if the field gives the same ones. -/
theorem sameScalars_of_field {key : String}
    (hothers : ∀ other, other ≠ key → field? other fields' = field? other fields)
    (hkey : scalars (field? key fields) = scalars (field? key fields'))
    (hrange : key = "range" → range? (field? key fields) = range? (field? key fields')) :
    SameScalars fields fields' := by
  have hscalars : ∀ other, scalars (field? other fields) = scalars (field? other fields') := by
    intro other
    by_cases hother : other = key
    · rw [hother, hkey]
    · rw [hothers other hother]
  have hoffset : ∀ other, offset? (field? other fields) = offset? (field? other fields') :=
    fun other ↦ congrArg (fun x ↦ x.2.2) (hscalars other)
  have hspan : range? (field? "range" fields) = range? (field? "range" fields') := by
    by_cases hother : "range" = key
    · subst hother
      exact hrange rfl
    · rw [hothers _ hother]
  refine ⟨fun other ↦ congrArg Prod.fst (hscalars other),
    fun other ↦ congrArg (fun x ↦ x.2.1) (hscalars other), ?_⟩
  rw [spanOf, spanOf, spanBetween?, spanBetween?, hoffset, hoffset, hspan]

/-- The field `value` gives the text of the object: a literal without a text `raw`. -/
def WritesValue (fields : List (String × Json)) : Prop :=
  kind (object fields) = .literal ∧ textField? "raw" fields = none

/-- Literals have the same text if their fields `value` are the same or are not written. -/
theorem rawOf_eq_of_field {key : String} (hscalars : SameScalars fields fields')
    (hothers : ∀ other, other ≠ key → field? other fields' = field? other fields)
    (hkey : key = "value" → ¬ WritesValue fields) (hkind : kind (object fields) = .literal) :
    rawOf fields = rawOf fields' := by
  rw [rawOf, rawOf, ← hscalars.text]
  cases hraw : textField? "raw" fields with
  | some raw => rfl
  | none =>
    have hother : "value" ≠ key := fun heq ↦ hkey heq.symm ⟨hkind, hraw⟩
    rw [hothers _ hother]

end Fields

/-- A list gives the span that the numbers in it give. -/
theorem range?_eq_of_nat? {items items' : List Json}
    (h : List.Forall₂ (fun v w ↦ v.nat? = w.nat?) items items') :
    range? (some (array items)) = range? (some (array items')) := by
  match items, items', h with
  | [], _, .nil => rfl
  | [_], _, .cons _ .nil => rfl
  | [start, stop], _, .cons hstart (.cons hstop .nil) =>
    simp [range?, spanBetween?, offset?, hstart, hstop]
  | _ :: _ :: _ :: _, _, .cons _ (.cons _ (.cons _ _)) => rfl

end Json

namespace Lowering

open Json (SameScalars WritesValue scalars field? textField? kind)

/-! ### Steps on related sessions -/

/-- From related sessions the steps give related results and lead to related sessions. -/
def Related {α : Type} (S : Session → Session → Prop) (R : α → α → Prop)
    (m n : StateM Session α) : Prop :=
  ∀ s s', S s s' → R (m s).1 (n s').1 ∧ S (m s).2 (n s').2

namespace Related

variable {α β : Type} {S : Session → Session → Prop} {R : α → α → Prop} {Q : β → β → Prop}

protected theorem pure {x y : α} (h : R x y) : Related S R (pure x) (pure y) :=
  fun _ _ hs ↦ ⟨h, hs⟩

protected theorem bind {m n : StateM Session α} {f g : α → StateM Session β}
    (hm : Related S R m n) (hf : ∀ x y, R x y → Related S Q (f x) (g y)) :
    Related S Q (m >>= f) (n >>= g) :=
  fun s s' hs ↦ hf _ _ (hm s s' hs).1 _ _ (hm s s' hs).2

theorem bind_eq {m n : StateM Session α} {f g : α → StateM Session β} (hm : Related S Eq m n)
    (hf : ∀ x, Related S Q (f x) (g x)) : Related S Q (m >>= f) (n >>= g) :=
  hm.bind fun x _ hxy ↦ hxy ▸ hf x

end Related

/-- Lowering keeps the relations: reports and additions lead from related sessions to related ones,
also the addition of nodes whose lists of children are related. -/
structure Simulation (S : Session → Session → Prop) (L : List Handle → List Handle → Prop) :
    Prop where
  nil : L [] []
  cons (child : Handle) {children others : List Handle} (h : L children others) :
    L (child :: children) (child :: others)
  report (e : Event) : Related S Eq (Session.report e) (Session.report e)
  add (span : Span) (draft : Draft) : Related S Eq (Session.add span draft) (Session.add span draft)
  addArray (span : Span) {elements others : List Handle} (h : L elements others) :
    Related S Eq (Session.add span (.arrayPattern elements))
      (Session.add span (.arrayPattern others))
  addObject (span : Span) {entries others : List Handle} (h : L entries others) :
    Related S Eq (Session.add span (.objectPattern entries))
      (Session.add span (.objectPattern others))
  addImport (span : Span) {specifiers others : List Handle} (h : L specifiers others)
    (source : Handle) :
    Related S Eq (Session.add span (.importing ⟨specifiers, source⟩))
      (Session.add span (.importing ⟨others, source⟩))

/-- Lowers a value in the place of a list of children: one that is no list has none. -/
def lowerAsList : Json → StateM Session (List Handle)
  | .array items => lowerItems items
  | _ => pure []

/-- Lowers a value in the place of a child. -/
def lowerAsChild (v : Json) : StateM Session Handle :=
  if v.isNull then pure .absent else lower v

theorem lowerField_eq_elim (key : String) (fields : List (String × Json)) :
    lowerField key fields = (field? key fields).elim (pure .absent) lowerAsChild := by
  induction fields with
  | nil => rfl
  | cons head others ih =>
    rw [lowerField, field?]
    split
    · rfl
    · exact ih

theorem lowerList_eq_elim (key : String) (fields : List (String × Json)) :
    lowerList key fields = (field? key fields).elim (pure []) lowerAsList := by
  induction fields with
  | nil => rfl
  | cons head others ih =>
    unfold lowerList field?
    split
    · cases head.2 <;> rfl
    · exact ih

theorem lowerItems_cons (v : Json) (others : List Json) :
    lowerItems (v :: others) = do
      let head ← lowerAsChild v
      let tail ← lowerItems others
      return head :: tail := by
  rw [lowerItems, lowerAsChild]
  split <;> rfl

section Simulated

variable {S : Session → Session → Prop} {L : List Handle → List Handle → Prop}

/-- Lists of children are related if the first ones are and the others are. -/
theorem lowerItems_cons_related (hsim : Simulation S L) {v w : Json} {others others' : List Json}
    (hhead : Related S Eq (lowerAsChild v) (lowerAsChild w))
    (htail : Related S L (lowerItems others) (lowerItems others')) :
    Related S L (lowerItems (v :: others)) (lowerItems (w :: others')) := by
  rw [lowerItems_cons, lowerItems_cons]
  exact hhead.bind_eq fun head ↦ htail.bind fun _ _ h ↦ .pure (hsim.cons head h)

/-- Objects with the same scalars are lowered alike if their children and lists are. -/
theorem lower_object (hsim : Simulation S L) {fields fields' : List (String × Json)}
    (hscalars : SameScalars fields fields')
    (hraw : kind (.object fields) = .literal → rawOf fields = rawOf fields')
    (hfield : ∀ key, Related S Eq (lowerField key fields) (lowerField key fields'))
    (hlist : ∀ key, Related S L (lowerList key fields) (lowerList key fields')) :
    Related S Eq (lower (.object fields)) (lower (.object fields')) := by
  have hforeign : ∀ e type, Related S Eq
      (do Session.report e; Session.add (spanOf fields) (.foreign type))
      (do Session.report e; Session.add (spanOf fields) (.foreign type)) :=
    fun e type ↦ (hsim.report e).bind_eq fun _ ↦ hsim.add _ _
  rw [lower, lower, ← hscalars.span, ← hscalars.text "type", ← hscalars.text "name",
    ← hscalars.flag, ← hscalars.flag]
  rw [kind] at hraw
  cases htype : textField? "type" fields with
  | none => exact hforeign _ _
  | some type =>
    rw [htype, Option.map_some, Option.getD_some] at hraw
    dsimp only
    cases hkind : Kind.ofTypeName type with
    | unknown => exact hforeign _ _
    | identifier =>
      cases textField? "name" fields with
      | none => exact hforeign _ _
      | some name => exact hsim.add _ _
    | literal =>
      dsimp only
      rw [hraw hkind]
      exact hsim.add _ _
    | arrayPattern => exact (hlist "elements").bind fun _ _ h ↦ hsim.addArray _ h
    | objectPattern => exact (hlist "properties").bind fun _ _ h ↦ hsim.addObject _ h
    | property =>
      exact (hfield "key").bind_eq fun _ ↦ (hfield "value").bind_eq fun _ ↦ hsim.add _ _
    | restElement => exact (hfield "argument").bind_eq fun _ ↦ hsim.add _ _
    | assignmentPattern =>
      exact (hfield "left").bind_eq fun _ ↦ (hfield "right").bind_eq fun _ ↦ hsim.add _ _
    | importDeclaration =>
      exact (hlist "specifiers").bind fun _ _ h ↦
        (hfield "source").bind_eq fun _ ↦ hsim.addImport _ h _
    | importSpecifier =>
      exact (hfield "imported").bind_eq fun _ ↦ (hfield "local").bind_eq fun _ ↦ hsim.add _ _
    | importDefaultSpecifier => exact (hfield "local").bind_eq fun _ ↦ hsim.add _ _
    | importNamespaceSpecifier => exact (hfield "local").bind_eq fun _ ↦ hsim.add _ _

mutual

/-- Every value is lowered alike into related sessions. -/
theorem lower_related (hsim : Simulation S L) : ∀ v : Json, Related S Eq (lower v) (lower v)
  | .object fields =>
    lower_object hsim ⟨fun _ ↦ rfl, fun _ ↦ rfl, rfl⟩ (fun _ ↦ rfl)
      (fun key ↦ lowerField_related hsim key fields) fun key ↦ lowerList_related hsim key fields
  | .null | .bool _ | .number _ | .string _ | .array _ =>
    (hsim.report _).bind_eq fun _ ↦ hsim.add _ _

theorem lowerField_related (hsim : Simulation S L) (key : String) :
    ∀ fields : List (String × Json), Related S Eq (lowerField key fields) (lowerField key fields)
  | [] => .pure rfl
  | (k, v) :: others => by
    rw [lowerField]
    split
    · split
      · exact .pure rfl
      · exact lower_related hsim v
    · exact lowerField_related hsim key others

theorem lowerList_related (hsim : Simulation S L) (key : String) :
    ∀ fields : List (String × Json), Related S L (lowerList key fields) (lowerList key fields)
  | [] => .pure hsim.nil
  | (k, v) :: others => by
    unfold lowerList
    split
    · cases v with
      | array items => exact lowerItems_related hsim items
      | _ => exact .pure hsim.nil
    · exact lowerList_related hsim key others

theorem lowerItems_related (hsim : Simulation S L) :
    ∀ items : List Json, Related S L (lowerItems items) (lowerItems items)
  | [] => .pure hsim.nil
  | v :: others => by
    refine lowerItems_cons_related hsim ?_ (lowerItems_related hsim others)
    rw [lowerAsChild]
    split
    · exact .pure rfl
    · exact lower_related hsim v

end

theorem lowerAsChild_related (hsim : Simulation S L) (v : Json) :
    Related S Eq (lowerAsChild v) (lowerAsChild v) := by
  rw [lowerAsChild]
  split
  · exact .pure rfl
  · exact lower_related hsim v

/-! ### Values that correspond -/

/-- In whatever place they stand, two values are read alike and lowered alike. -/
structure Corresponds (S : Session → Session → Prop) (L : List Handle → List Handle → Prop)
    (v w : Json) : Prop where
  rootType : rootType v = rootType w
  scalars : scalars (some v) = scalars (some w)
  nat? : v.nat? = w.nat?
  range? : range? (some v) = range? (some w)
  node : Related S Eq (lower v) (lower w)
  child : Related S Eq (lowerAsChild v) (lowerAsChild w)
  list : Related S L (lowerAsList v) (lowerAsList w)

/-- Objects correspond if they differ in one field, and that field gives the same scalars and is
lowered alike. -/
theorem corresponds_object (hsim : Simulation S L) {fields fields' : List (String × Json)}
    {key : String} (hothers : ∀ other, other ≠ key → field? other fields' = field? other fields)
    (hscalars : Json.scalars (field? key fields) = Json.scalars (field? key fields'))
    (hrange : key = "range" →
      Lowering.range? (field? key fields) = Lowering.range? (field? key fields'))
    (hvalue : key = "value" → ¬ WritesValue fields)
    (hchild : Related S Eq (lowerField key fields) (lowerField key fields'))
    (hlist : Related S L (lowerList key fields) (lowerList key fields')) :
    Corresponds S L (.object fields) (.object fields') := by
  have hsame := Json.sameScalars_of_field hothers hscalars hrange
  have hnode : Related S Eq (lower (.object fields)) (lower (.object fields')) := by
    refine lower_object hsim hsame (Json.rawOf_eq_of_field hsame hothers hvalue) ?_ ?_
    · intro other
      by_cases hother : other = key
      · exact hother ▸ hchild
      · rw [lowerField_eq_elim other fields', hothers other hother, ← lowerField_eq_elim]
        exact lowerField_related hsim other fields
    · intro other
      by_cases hother : other = key
      · exact hother ▸ hlist
      · rw [lowerList_eq_elim other fields', hothers other hother, ← lowerList_eq_elim]
        exact lowerList_related hsim other fields
  refine ⟨?_, rfl, rfl, rfl, hnode, hnode, .pure hsim.nil⟩
  rw [Lowering.rootType, Lowering.rootType, hsame.text]

/-- Objects correspond if all their look-ups are the same. -/
theorem corresponds_of_field?_eq (hsim : Simulation S L) {fields fields' : List (String × Json)}
    (h : ∀ key, field? key fields' = field? key fields) :
    Corresponds S L (.object fields) (.object fields') := by
  have hothers : ∀ other, other ≠ "type" → field? other fields' = field? other fields :=
    fun other _ ↦ h other
  refine corresponds_object hsim hothers ?_ (fun _ ↦ ?_) (fun hkey ↦ absurd hkey (by decide)) ?_ ?_
  · rw [h]
  · rw [h]
  · rw [lowerField_eq_elim _ fields', h, ← lowerField_eq_elim]
    exact lowerField_related hsim "type" fields
  · rw [lowerList_eq_elim _ fields', h, ← lowerList_eq_elim]
    exact lowerList_related hsim "type" fields

/-- Objects correspond if one field is replaced, and both values of it give the same scalars and are
lowered alike. -/
theorem corresponds_replace (hsim : Simulation S L) (before after : List (String × Json))
    {key : String} {v w : Json}
    (hvalue : key = "value" → ¬ WritesValue (before ++ (key, v) :: after))
    (hscalars : Json.scalars (some v) = Json.scalars (some w))
    (hrange : key = "range" → Lowering.range? (some v) = Lowering.range? (some w))
    (hchild : Related S Eq (lowerAsChild v) (lowerAsChild w))
    (hlist : Related S L (lowerAsList v) (lowerAsList w)) :
    Corresponds S L (.object (before ++ (key, v) :: after))
      (.object (before ++ (key, w) :: after)) := by
  have hothers : ∀ other, other ≠ key →
      field? other (before ++ (key, w) :: after) = field? other (before ++ (key, v) :: after) :=
    fun other hother ↦ Json.field?_replace_of_ne hother before after v w
  have hself := Json.field?_append key before
  cases hbefore : field? key before with
  | some u =>
    -- An earlier field of the same name hides the one that is replaced.
    refine corresponds_of_field?_eq hsim fun other ↦ ?_
    by_cases hother : other = key
    · rw [hother, hself, hself, hbefore, Option.some_or, Option.some_or]
    · exact hothers other hother
  | none =>
    have hfield : ∀ u, field? key (before ++ (key, u) :: after) = some u := by
      intro u
      rw [hself, hbefore, Option.none_or, field?, if_pos rfl]
    refine corresponds_object hsim hothers ?_ (fun hkey ↦ ?_) hvalue ?_ ?_
    · rw [hfield, hfield, hscalars]
    · rw [hfield, hfield, hrange hkey]
    · rw [lowerField_eq_elim, lowerField_eq_elim, hfield, hfield]
      exact hchild
    · rw [lowerList_eq_elim, lowerList_eq_elim, hfield, hfield]
      exact hlist

theorem lowerItems_append (hsim : Simulation S L) (before : List Json) {items items' : List Json}
    (h : Related S L (lowerItems items) (lowerItems items')) :
    Related S L (lowerItems (before ++ items)) (lowerItems (before ++ items')) := by
  induction before with
  | nil => exact h
  | cons v before ih => exact lowerItems_cons_related hsim (lowerAsChild_related hsim v) ih

namespace Corresponds

variable {v w : Json} (h : Corresponds S L v w)

include h

/-- An object corresponds to what it becomes if one of its fields is replaced by a value that
corresponds, unless the text of the field is written. -/
theorem within (hsim : Simulation S L) (before after : List (String × Json)) (key : String)
    (hvalue : key = "value" → ¬ WritesValue (before ++ (key, v) :: after)) :
    Corresponds S L (.object (before ++ (key, v) :: after))
      (.object (before ++ (key, w) :: after)) :=
  corresponds_replace hsim before after hvalue h.scalars (fun _ ↦ h.range?) h.child h.list

/-- A list corresponds to what it becomes if one of its items is replaced by a value that
corresponds. -/
theorem item (hsim : Simulation S L) (before after : List Json) :
    Corresponds S L (.array (before ++ v :: after)) (.array (before ++ w :: after)) := by
  have hsame : ∀ items : List Json, List.Forall₂ (fun v w ↦ v.nat? = w.nat?) items items :=
    fun items ↦ List.forall₂_same.2 fun _ _ ↦ rfl
  have hlist : Related S L (lowerItems (before ++ v :: after))
      (lowerItems (before ++ w :: after)) :=
    lowerItems_append hsim before
      (lowerItems_cons_related hsim h.child (lowerItems_related hsim after))
  refine ⟨rfl, rfl, rfl, ?_, ?_, ?_, hlist⟩
  · exact Json.range?_eq_of_nat? (List.rel_append (hsame before) (.cons h.nat? (hsame after)))
  · exact (hsim.report _).bind_eq fun _ ↦ hsim.add _ _
  · exact (hsim.report _).bind_eq fun _ ↦ hsim.add _ _

end Corresponds

end Simulated

end Lowering

end BoundNames

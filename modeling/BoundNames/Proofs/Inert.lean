import BoundNames.Proofs.Correspondence
import BoundNames.Proofs.Extraction
import Mathlib.Logic.Relation

/-!
# Parts that bind nothing

Few fields of an object have a say in what a value binds (`Json.bindingFields`): its type, the
fields that lead to what it binds, and of an identifier the name and the span. A change of a value
adds, takes away or replaces a field without a say, at any depth (`Json.Changes`). What replaces it
may be anything, so a change can add nodes and names to the arena of the value and move all others.

Two values are alike if nothing that a value is read for tells them apart, in whatever place they
stand (`Json.Alike`). Objects are alike if their fields with a say are, and lists if their items
are. So a change leaves a value that is alike (`Json.Changes.alike`), and the same is extracted
after any number of changes (`gives_of_changes`).
-/

set_option autoImplicit false
set_option relaxedAutoImplicit false

namespace BoundNames

namespace Json

open Lowering (rootType range? spanOf offset? spanBetween?)

/-! ### Fields with a say -/

/-- The fields of an object that have a say in what is bound. -/
def bindingFields (fields : List (String × Json)) : List String :=
  "type" :: match kind (object fields) with
    | .identifier =>
      "name" :: if (textField? "name" fields).isSome then ["start", "end", "range"] else []
    | .arrayPattern => ["elements"]
    | .objectPattern => ["properties"]
    | .property => ["value"]
    | .restElement => ["argument"]
    | .assignmentPattern => ["left"]
    | .importDeclaration => ["specifiers"]
    | .importSpecifier | .importDefaultSpecifier | .importNamespaceSpecifier => ["local"]
    | .literal | .unknown => []

/-- A change of a value at one place: a field without a say is added, taken away or replaced, in the
value itself, within one of its fields or within one of its items. -/
inductive Changes : Json → Json → Prop where
  | field {fields fields' : List (String × Json)} (key : String)
    (hkey : key ∉ bindingFields fields)
    (hothers : ∀ other, other ≠ key → field? other fields' = field? other fields) :
    Changes (object fields) (object fields')
  | within {fields fields' : List (String × Json)} (key : String) {v w : Json}
    (hv : field? key fields = some v) (hw : field? key fields' = some w)
    (hothers : ∀ other, other ≠ key → field? other fields' = field? other fields)
    (h : Changes v w) : Changes (object fields) (object fields')
  | item (before after : List Json) {v w : Json} (h : Changes v w) :
    Changes (array (before ++ v :: after)) (array (before ++ w :: after))

/-! ### What a value is read for -/

/-- The names that a value binds in the place of an entry of an object pattern. -/
def asEntry : Json → List (String × Span)
  | object fields =>
    match kind (object fields) with
    | .property => fieldBindings "value" fields
    | .restElement => restBindings "argument" fields
    | _ => []
  | _ => []

/-- The names that a value binds in the place of a list of nodes. -/
def asList : Json → List (String × Span)
  | array items => itemBindings items
  | _ => []

/-- The names that a value binds in the place of the entries of an object pattern. -/
def asEntries : Json → List (String × Span)
  | array items => entriesBindings items
  | _ => []

theorem fieldBindings_eq_elim (key : String) (fields : List (String × Json)) :
    fieldBindings key fields = (field? key fields).elim [] bindings := by
  induction fields with
  | nil => rfl
  | cons head rest ih =>
    rw [fieldBindings, field?]
    split
    · rfl
    · exact ih

theorem restBindings_eq_elim (key : String) (fields : List (String × Json)) :
    restBindings key fields =
      (field? key fields).elim [] fun v ↦ if v.kind = .restElement then [] else v.bindings := by
  induction fields with
  | nil => rfl
  | cons head rest ih =>
    rw [restBindings, field?]
    split
    · rfl
    · exact ih

theorem listBindings_eq_elim (key : String) (fields : List (String × Json)) :
    listBindings key fields = (field? key fields).elim [] asList := by
  induction fields with
  | nil => rfl
  | cons head rest ih =>
    unfold listBindings field?
    split
    · cases head.2 <;> rfl
    · exact ih

theorem entryBindings_eq_elim (key : String) (fields : List (String × Json)) :
    entryBindings key fields = (field? key fields).elim [] asEntries := by
  induction fields with
  | nil => rfl
  | cons head rest ih =>
    unfold entryBindings field?
    split
    · cases head.2 <;> rfl
    · exact ih

theorem entriesBindings_cons (v : Json) (rest : List Json) :
    entriesBindings (v :: rest) = asEntry v ++ entriesBindings rest := by
  cases v <;> rfl

/-- Nothing that a value is read for tells the two apart. -/
structure Alike (v w : Json) : Prop where
  rootType : rootType v = rootType w
  kind : v.kind = w.kind
  text? : v.text? = w.text?
  nat? : v.nat? = w.nat?
  range? : range? (some v) = range? (some w)
  bindings : v.bindings = w.bindings
  asEntry : v.asEntry = w.asEntry
  asList : v.asList = w.asList
  asEntries : v.asEntries = w.asEntries

namespace Alike

protected theorem refl (v : Json) : Alike v v :=
  ⟨rfl, rfl, rfl, rfl, rfl, rfl, rfl, rfl, rfl⟩

protected theorem trans {u v w : Json} (h : Alike u v) (h' : Alike v w) : Alike u w where
  rootType := h.rootType.trans h'.rootType
  kind := h.kind.trans h'.kind
  text? := h.text?.trans h'.text?
  nat? := h.nat?.trans h'.nat?
  range? := h.range?.trans h'.range?
  bindings := h.bindings.trans h'.bindings
  asEntry := h.asEntry.trans h'.asEntry
  asList := h.asList.trans h'.asList
  asEntries := h.asEntries.trans h'.asEntries

/-- What is the same for two values that are alike is the same for two fields that are. -/
theorem congr_option {α : Type} {f : Option Json → α}
    (hf : ∀ v w, Alike v w → f (some v) = f (some w)) {o o' : Option Json}
    (h : Option.Rel Alike o o') : f o = f o' := by
  cases h with
  | none => rfl
  | some halike => exact hf _ _ halike

end Alike

/-! ### Fields that are alike -/

/-- The first fields with a name are alike, or both objects are without one. -/
def AlikeAt (fields fields' : List (String × Json)) (key : String) : Prop :=
  Option.Rel Alike (field? key fields) (field? key fields')

theorem alikeAt_of_eq {fields fields' : List (String × Json)} {key : String}
    (h : field? key fields' = field? key fields) : AlikeAt fields fields' key := by
  rw [AlikeAt, h]
  cases field? key fields with
  | none => exact .none
  | some v => exact .some (.refl v)

namespace AlikeAt

variable {fields fields' : List (String × Json)} {key : String} (h : AlikeAt fields fields' key)

include h

theorem textField? : Json.textField? key fields = Json.textField? key fields' :=
  Alike.congr_option (f := fun o ↦ o.bind Json.text?) (fun _ _ halike ↦ halike.text?) h

theorem offset? : offset? (field? key fields) = offset? (field? key fields') := by
  refine Alike.congr_option (fun v w halike ↦ ?_) h
  rw [Lowering.offset?, Lowering.offset?, Option.bind_some, Option.bind_some, halike.nat?]

theorem fieldBindings : Json.fieldBindings key fields = Json.fieldBindings key fields' := by
  rw [fieldBindings_eq_elim, fieldBindings_eq_elim]
  exact Alike.congr_option (f := fun o ↦ o.elim [] Json.bindings)
    (fun _ _ halike ↦ halike.bindings) h

theorem restBindings : Json.restBindings key fields = Json.restBindings key fields' := by
  rw [restBindings_eq_elim, restBindings_eq_elim]
  refine Alike.congr_option (f := fun o ↦ o.elim [] _) (fun v w halike ↦ ?_) h
  rw [Option.elim_some, Option.elim_some, halike.kind, halike.bindings]

theorem listBindings : Json.listBindings key fields = Json.listBindings key fields' := by
  rw [listBindings_eq_elim, listBindings_eq_elim]
  exact Alike.congr_option (f := fun o ↦ o.elim [] Json.asList) (fun _ _ halike ↦ halike.asList) h

theorem entryBindings : Json.entryBindings key fields = Json.entryBindings key fields' := by
  rw [entryBindings_eq_elim, entryBindings_eq_elim]
  exact Alike.congr_option (f := fun o ↦ o.elim [] Json.asEntries)
    (fun _ _ halike ↦ halike.asEntries) h

end AlikeAt

section Objects

variable {fields fields' : List (String × Json)}

theorem spanOf_eq_of_alikeAt (hstart : AlikeAt fields fields' "start")
    (hend : AlikeAt fields fields' "end") (hrange : AlikeAt fields fields' "range") :
    spanOf fields = spanOf fields' := by
  have hspan : range? (field? "range" fields) = range? (field? "range" fields') :=
    Alike.congr_option (fun _ _ halike ↦ halike.range?) hrange
  rw [spanOf, spanOf, spanBetween?, spanBetween?, hstart.offset?, hend.offset?, hspan]

theorem kind_eq_of_alikeAt (htype : AlikeAt fields fields' "type") :
    kind (object fields) = kind (object fields') := by
  rw [kind, kind, htype.textField?]

variable (h : ∀ key ∈ bindingFields fields, AlikeAt fields fields' key)

include h

theorem bindings_eq_of_alikeAt : bindings (object fields) = bindings (object fields') := by
  have hkind := kind_eq_of_alikeAt (h "type" List.mem_cons_self)
  rw [bindings, bindings, ← hkind]
  rw [bindingFields] at h
  cases hk : kind (object fields) with
  | identifier =>
    rw [hk] at h
    have hname := (h "name" (by simp)).textField?
    rw [← hname]
    cases hn : textField? "name" fields with
    | none => rfl
    | some name =>
      simp only [hn, Option.isSome_some, if_true] at h
      rw [spanOf_eq_of_alikeAt (h _ (by simp)) (h _ (by simp)) (h _ (by simp))]
  | arrayPattern => exact (h "elements" (by simp [hk])).listBindings
  | objectPattern => exact (h "properties" (by simp [hk])).entryBindings
  | restElement => exact (h "argument" (by simp [hk])).restBindings
  | assignmentPattern => exact (h "left" (by simp [hk])).fieldBindings
  | importDeclaration => exact (h "specifiers" (by simp [hk])).listBindings
  | importSpecifier => exact (h "local" (by simp [hk])).fieldBindings
  | importDefaultSpecifier => exact (h "local" (by simp [hk])).fieldBindings
  | importNamespaceSpecifier => exact (h "local" (by simp [hk])).fieldBindings
  | property => rfl
  | literal => rfl
  | unknown => rfl

theorem asEntry_eq_of_alikeAt : asEntry (object fields) = asEntry (object fields') := by
  have hkind := kind_eq_of_alikeAt (h "type" List.mem_cons_self)
  rw [asEntry, asEntry, ← hkind]
  rw [bindingFields] at h
  cases hk : kind (object fields) with
  | property => exact (h "value" (by simp [hk])).fieldBindings
  | restElement => exact (h "argument" (by simp [hk])).restBindings
  | _ => rfl

/-- Objects are alike if their fields with a say are. -/
theorem alike_object : Alike (object fields) (object fields') where
  rootType := by
    rw [Lowering.rootType, Lowering.rootType, (h "type" List.mem_cons_self).textField?]
  kind := kind_eq_of_alikeAt (h "type" List.mem_cons_self)
  text? := rfl
  nat? := rfl
  range? := rfl
  bindings := bindings_eq_of_alikeAt h
  asEntry := asEntry_eq_of_alikeAt h
  asList := rfl
  asEntries := rfl

end Objects

/-! ### Items that are alike -/

section Lists

variable {items items' : List Json} (h : List.Forall₂ Alike items items')

include h

theorem itemBindings_eq_of_alike : itemBindings items = itemBindings items' := by
  induction h with
  | nil => rfl
  | cons head _ ih => rw [itemBindings, itemBindings, head.bindings, ih]

theorem entriesBindings_eq_of_alike : entriesBindings items = entriesBindings items' := by
  induction h with
  | nil => rfl
  | cons head _ ih => rw [entriesBindings_cons, entriesBindings_cons, head.asEntry, ih]

theorem range?_eq_of_alike : range? (some (array items)) = range? (some (array items')) :=
  range?_eq_of_nat? (h.imp fun _ _ halike ↦ halike.nat?)

/-- Lists are alike if their items are. -/
theorem alike_array : Alike (array items) (array items') where
  rootType := rfl
  kind := rfl
  text? := rfl
  nat? := rfl
  range? := range?_eq_of_alike h
  bindings := rfl
  asEntry := rfl
  asList := itemBindings_eq_of_alike h
  asEntries := entriesBindings_eq_of_alike h

end Lists

/-- A change leaves a value that is alike. -/
theorem Changes.alike {v w : Json} (h : Changes v w) : Alike v w := by
  induction h with
  | field key hkey hothers =>
    refine alike_object fun other hother ↦ alikeAt_of_eq (hothers other ?_)
    exact fun heq ↦ hkey (heq ▸ hother)
  | within key hv hw hothers _ ih =>
    refine alike_object fun other _ ↦ ?_
    by_cases heq : other = key
    · rw [heq, AlikeAt, hv, hw]
      exact .some ih
    · exact alikeAt_of_eq (hothers other heq)
  | item before after _ ih =>
    have hsame : ∀ items, List.Forall₂ Alike items items :=
      fun items ↦ List.forall₂_same.2 fun v _ ↦ .refl v
    exact alike_array (List.rel_append (hsame before) (.cons ih (hsame after)))

/-- So does any number of changes. -/
theorem alike_of_changes {v w : Json} (h : Relation.ReflTransGen Changes v w) : Alike v w := by
  induction h with
  | refl => exact Alike.refl v
  | tail _ hstep ih => exact ih.trans hstep.alike

end Json

namespace Extraction

open Lowering (rootType lower)

/-- What extraction gives: identifiers with these names and spans, and the names alone. -/
def Gives (v : Json) (found : List (String × Span)) : Prop :=
  ∃ arena handles, (identifiers v).value = .ok (arena, handles) ∧
    handles.toList.map (fun node ↦ (arena.name? node, arena.span? node)) =
      found.map (fun x ↦ (some x.1, some x.2)) ∧
    (names v).value = .ok (found.map Prod.fst)

theorem gives_bindings {v : Json} {type : String} (h : rootType v = .ok type)
    (hsize : ((lower v).run { arena := .prepared }).2.arena.size < Arena.nodeLimit) :
    Gives v v.bindings := by
  obtain ⟨arena, handles, hvalue, hreads⟩ := value_of_rootType_ok h hsize
  exact ⟨arena, handles, hvalue, Arena.map_of_reads hreads, names_of_reads hvalue hreads⟩

/-- Changes of fields without a say, however many and wherever in the value, change neither the
names nor the spans that are extracted: they are those that the value binds before the changes. -/
theorem gives_of_changes {v w : Json} {type : String}
    (hchanges : Relation.ReflTransGen Json.Changes v w) (htype : rootType v = .ok type)
    (hv : ((lower v).run { arena := .prepared }).2.arena.size < Arena.nodeLimit)
    (hw : ((lower w).run { arena := .prepared }).2.arena.size < Arena.nodeLimit) :
    rootType w = .ok type ∧ Gives v v.bindings ∧ Gives w v.bindings := by
  have halike := Json.alike_of_changes hchanges
  have htype' : rootType w = .ok type := halike.rootType ▸ htype
  refine ⟨htype', gives_bindings htype hv, ?_⟩
  rw [halike.bindings]
  exact gives_bindings htype' hw

/-- An object pattern of one property, with a default for what its value binds. -/
def defaultedPattern (key right : Json) : Json :=
  .object [("type", "ObjectPattern"), ("properties", .array [.object
    [("type", "Property"), ("key", key), ("value", .object
      [("type", "AssignmentPattern"), ("left", .object [("type", "Identifier"), ("name", "a")]),
        ("right", right)])]])]

/-- A pattern with a name of its own. -/
def restOfB : Json :=
  .object [("type", "RestElement"), ("argument", .object [("type", "Identifier"), ("name", "b")])]

/-- Neither the key nor the default binds anything, also after both are changed to patterns. -/
theorem gives_defaultedPattern :
    Gives (defaultedPattern "k" .null) [("a", .nowhere)] ∧
      Gives (defaultedPattern restOfB restOfB) [("a", .nowhere)] := by
  have hkey : Json.Changes (defaultedPattern "k" .null) (defaultedPattern restOfB .null) := by
    refine .within "properties" rfl rfl ?_ (.item [] [] (.field "key" (by decide) ?_))
    all_goals
      intro other hother
      simp [Json.field?, Ne.symm hother]
  have hright : Json.Changes (defaultedPattern restOfB .null)
      (defaultedPattern restOfB restOfB) := by
    refine .within "properties" rfl rfl ?_ (.item [] [] (.within "value" rfl rfl ?_
      (.field "right" (by decide) ?_)))
    all_goals
      intro other hother
      simp [Json.field?, Ne.symm hother]
  exact (gives_of_changes (.tail (.single hkey) hright) rfl (by decide +kernel)
    (by decide +kernel)).2

end Extraction

end BoundNames

import BoundNames.Bindings
import BoundNames.Proofs.Nodes
import BoundNames.Proofs.Paths

/-!
# Bindings of a tree

The names that a tree binds stand between those that a JSON value binds and those that a walk
collects. The tree of a value binds what the value does (`bindings_ofJson`). Where a tree unfolds
from a node, a visit of the node collects identifiers that have the names and the spans that the
tree binds, in the same order (`readsWithin`), whatever else the arena holds.
-/

set_option autoImplicit false
set_option relaxedAutoImplicit false

namespace BoundNames

namespace Tree

/-- Whether the root is a rest element. -/
def isRest : Tree → Bool
  | rest .. => true
  | _ => false

mutual

/-- The names that a tree binds with their spans, from left to right. -/
def bindings : Tree → List (String × Span)
  | identifier span name => [(name, span)]
  | arrayPattern _ elements => itemBindings elements
  | objectPattern _ entries => entriesBindings entries
  | rest _ argument => restBindings argument
  | assignment _ left _ => childBindings left
  | importing _ specifiers _ => itemBindings specifiers
  | specifier _ _ _ localName => childBindings localName
  | literal .. | property .. | foreign .. => []

/-- The names that a child binds. -/
def childBindings : Option Tree → List (String × Span)
  | none => []
  | some child => bindings child

/-- The names that the argument of a rest element binds: none if that is a rest element too. -/
def restBindings : Option Tree → List (String × Span)
  | none => []
  | some argument => if argument.isRest then [] else bindings argument

/-- The names that children in a list bind. -/
def itemBindings : List (Option Tree) → List (String × Span)
  | [] => []
  | child :: others => childBindings child ++ itemBindings others

/-- The names that an entry of an object pattern binds: a property binds what its value binds, a
rest element what it binds itself, and nothing else is an entry. -/
def entryBindings : Option Tree → List (String × Span)
  | some (property _ _ value _ _) => childBindings value
  | some (rest _ argument) => restBindings argument
  | _ => []

/-- The names that the entries of an object pattern bind. -/
def entriesBindings : List (Option Tree) → List (String × Span)
  | [] => []
  | entry :: others => entryBindings entry ++ entriesBindings others

end

theorem itemBindings_eq_flatMap (items : List (Option Tree)) :
    itemBindings items = items.flatMap childBindings := by
  induction items with
  | nil => rfl
  | cons child others ih => rw [itemBindings, ih, List.flatMap_cons]

theorem entriesBindings_eq_flatMap (entries : List (Option Tree)) :
    entriesBindings entries = entries.flatMap entryBindings := by
  induction entries with
  | nil => rfl
  | cons entry others ih => rw [entriesBindings, ih, List.flatMap_cons]

/-! ### The tree of a JSON value -/

open Json (textField?)

theorem isRest_ofJson (v : Json) : (ofJson v).isRest = decide (v.kind = .restElement) := by
  cases v with
  | object fields =>
    rw [ofJson, Json.kind]
    cases textField? "type" fields with
    | none => rfl
    | some type =>
      rw [Option.map_some, Option.getD_some]
      dsimp only
      cases Kind.ofTypeName type with
      | identifier => cases textField? "name" fields <;> rfl
      | _ => rfl
  | _ => rfl

mutual

/-- The tree of a value binds what the value binds. -/
theorem bindings_ofJson : ∀ v : Json, (ofJson v).bindings = v.bindings
  | .object fields => by
    rw [ofJson, Json.bindings, Json.kind]
    cases textField? "type" fields with
    | none => rfl
    | some type =>
      rw [Option.map_some, Option.getD_some]
      dsimp only
      cases Kind.ofTypeName type with
      | identifier => cases textField? "name" fields <;> rfl
      | arrayPattern => exact itemBindings_ofList "elements" fields
      | objectPattern => exact entriesBindings_ofList "properties" fields
      | restElement => exact restBindings_ofField "argument" fields
      | assignmentPattern => exact childBindings_ofField "left" fields
      | importDeclaration => exact itemBindings_ofList "specifiers" fields
      | importSpecifier => exact childBindings_ofField "local" fields
      | importDefaultSpecifier => exact childBindings_ofField "local" fields
      | importNamespaceSpecifier => exact childBindings_ofField "local" fields
      | property => rfl
      | literal => rfl
      | unknown => rfl
  | .null | .bool _ | .number _ | .string _ | .array _ => rfl

theorem childBindings_ofField (key : String) : ∀ fields : List (String × Json),
    childBindings (ofField key fields) = Json.fieldBindings key fields
  | [] => rfl
  | (k, v) :: others => by
    rw [ofField, Json.fieldBindings]
    split
    · cases v with
      | null => rfl
      | _ => exact bindings_ofJson _
    · exact childBindings_ofField key others

theorem restBindings_ofField (key : String) : ∀ fields : List (String × Json),
    restBindings (ofField key fields) = Json.restBindings key fields
  | [] => rfl
  | (k, v) :: others => by
    rw [ofField, Json.restBindings]
    split
    · have hv := bindings_ofJson v
      have hrest := isRest_ofJson v
      by_cases hnull : v.isNull = true
      · cases v with
        | null => rfl
        | _ => cases hnull
      · rw [if_neg hnull, restBindings, hrest, hv]
        simp only [decide_eq_true_eq]
    · exact restBindings_ofField key others

theorem itemBindings_ofList (key : String) : ∀ fields : List (String × Json),
    itemBindings (ofList key fields) = Json.listBindings key fields
  | [] => rfl
  | (k, v) :: others => by
    unfold ofList Json.listBindings
    split
    · cases v with
      | array items => exact itemBindings_ofItems items
      | _ => rfl
    · exact itemBindings_ofList key others

theorem itemBindings_ofItems : ∀ items : List Json,
    itemBindings (ofItems items) = Json.itemBindings items
  | [] => rfl
  | v :: others => by
    rw [ofItems, itemBindings, Json.itemBindings, itemBindings_ofItems others]
    congr 1
    cases v with
    | null => rfl
    | _ => exact bindings_ofJson _

theorem entriesBindings_ofList (key : String) : ∀ fields : List (String × Json),
    entriesBindings (ofList key fields) = Json.entryBindings key fields
  | [] => rfl
  | (k, v) :: others => by
    unfold ofList Json.entryBindings
    split
    · cases v with
      | array items => exact entriesBindings_ofItems items
      | _ => rfl
    · exact entriesBindings_ofList key others

theorem entriesBindings_ofItems : ∀ items : List Json,
    entriesBindings (ofItems items) = Json.entriesBindings items
  | [] => rfl
  | .object fields :: others => by
    rw [ofItems, entriesBindings, Json.entriesBindings, entriesBindings_ofItems others]
    congr 1
    simp only [Json.isNull, Bool.false_eq_true, if_false]
    rw [ofJson, Json.kind]
    cases textField? "type" fields with
    | none => rfl
    | some type =>
      rw [Option.map_some, Option.getD_some]
      dsimp only
      cases Kind.ofTypeName type with
      | identifier => cases textField? "name" fields <;> rfl
      | property => exact childBindings_ofField "value" fields
      | restElement => exact restBindings_ofField "argument" fields
      | _ => rfl
  | .null :: others | .bool _ :: others | .number _ :: others | .string _ :: others
  | .array _ :: others => entriesBindings_ofItems others

end

end Tree

/-! ### The identifiers of a tree in an arena -/

namespace Arena

open BoundNames.Tree

/-- A handle is that of an identifier with a name and a span. -/
def Reads (a : Arena) (node : Handle) (x : String × Span) : Prop :=
  a.name? node = some x.1 ∧ a.span? node = some x.2

theorem name?_of_shape? {a : Arena} {node : Handle} {symbol : Symbol}
    (hs : a.shape? node = some (.identifier symbol)) :
    a.name? node = some (a.symbols.name symbol) := by
  obtain ⟨n, hn, hshape⟩ := Option.bind_eq_some_iff.1 hs
  have hsymbol : a.pools.identifier? n = some symbol := by
    unfold Pools.shape? at hshape
    split at hshape <;> simp_all
  rw [name?, symbol?, hn, Option.bind_some, hsymbol, Option.map_some]

theorem isRest_of_tree? {a : Arena} {budget : Nat} {node : Handle} {t : Tree}
    (h : a.tree? budget node = some t) : a.isRest node = t.isRest := by
  cases budget with
  | zero => cases h
  | succ budget =>
    obtain ⟨s, span, hs, -, hunfolds⟩ := unfolds_of_tree? h
    rw [isRest, hs]
    cases hunfolds <;> rfl

/-- A child is missing or unfolds. -/
theorem of_child?_eq_some {below : Handle → Option Tree} {child : Handle} {c : Option Tree}
    (h : child? below child = some c) :
    child = .absent ∧ c = none ∨ ∃ t, below child = some t ∧ c = some t := by
  unfold child? at h
  split at h
  · next habsent => exact .inl ⟨Handle.isAbsent_iff.1 habsent, (Option.some.inj h).symm⟩
  · obtain ⟨t, ht, rfl⟩ := Option.map_eq_some_iff.1 h
    exact .inr ⟨t, ht, rfl⟩

/-- Where a tree unfolds within a budget, a visit within that budget or a larger one collects
identifiers with the names and the spans that the tree binds. -/
def ReadsWithin (a : Arena) (budget : Nat) : Prop :=
  ∀ node t, a.tree? budget node = some t → ∀ larger, budget ≤ larger →
    List.Forall₂ a.Reads (a.binders larger node) t.bindings

theorem binders_absent (a : Arena) (budget : Nat) : a.binders budget .absent = [] := by
  cases budget with
  | zero => rfl
  | succ budget =>
    rw [binders_succ, steps_of_header?_eq_none a.header?_absent, List.flatMap_nil]

section Within

variable {a : Arena} {budget larger : Nat}

theorem ReadsWithin.child (hbudget : a.ReadsWithin budget) (hle : budget ≤ larger) {child : Handle}
    {c : Option Tree} (h : child? (a.tree? budget) child = some c) :
    List.Forall₂ a.Reads (a.binders larger child) (childBindings c) := by
  rcases of_child?_eq_some h with ⟨rfl, rfl⟩ | ⟨t, ht, rfl⟩
  · rw [binders_absent]
    exact .nil
  · exact hbudget child t ht larger hle

theorem ReadsWithin.argument (hbudget : a.ReadsWithin budget) (hle : budget ≤ larger)
    {argument : Handle} {c : Option Tree} (h : child? (a.tree? budget) argument = some c) :
    List.Forall₂ a.Reads (if a.isRest argument then [] else a.binders larger argument)
      (restBindings c) := by
  rcases of_child?_eq_some h with ⟨rfl, rfl⟩ | ⟨t, ht, rfl⟩
  · rw [binders_absent, ite_self]
    exact .nil
  · rw [restBindings, isRest_of_tree? ht]
    split
    · exact .nil
    · exact hbudget argument t ht larger hle

/-- The value of a property is one level below the entry, so two budgets take part. -/
theorem ReadsWithin.entry (hbudget : ∀ b ≤ budget, a.ReadsWithin b) (hle : budget ≤ larger)
    {entry : Handle} {c : Option Tree} (h : child? (a.tree? budget) entry = some c) :
    List.Forall₂ a.Reads ((a.entryTarget? entry).elim [] (a.binders larger)) (entryBindings c) := by
  rcases of_child?_eq_some h with ⟨rfl, rfl⟩ | ⟨t, ht, rfl⟩
  · exact .nil
  cases budget with
  | zero => cases ht
  | succ budget =>
    obtain ⟨s, span, hs, -, hunfolds⟩ := unfolds_of_tree? ht
    rw [entryTarget?, hs]
    cases hunfolds with
    | property _ hvalue => exact (hbudget budget (Nat.le_succ _)).child (by omega) hvalue
    | rest _ => exact hbudget (budget + 1) (Nat.le_refl _) entry _ ht larger hle
    | _ => exact .nil

/-- What a node collects where its positions lead, if it is neither an identifier nor a rest
element. -/
theorem binders_succ_eq_targets {node : Handle} {s : Shape Symbol} (hs : a.shape? node = some s)
    (hidentifier : ∀ symbol, s ≠ .identifier symbol) (hrest : ∀ argument, s ≠ .rest argument) :
    a.binders (budget + 1) node =
      (a.targets node).flatMap fun target ↦ target.elim [] (a.binders budget) := by
  rw [binders_succ, flatMap_steps_eq_targets (a.binders_absent budget)]
  · rw [hs]
    exact fun symbol h ↦ hidentifier symbol (Option.some.inj h)
  · rw [← Bool.not_eq_true, isRest_eq_true_iff, hs]
    exact fun ⟨argument, h⟩ ↦ hrest argument (Option.some.inj h)

end Within

/-- Where a tree unfolds from a node, in whatever arena, a visit of the node collects identifiers
with the names and the spans that the tree binds. -/
theorem readsWithin (a : Arena) (budget : Nat) : a.ReadsWithin budget := by
  induction budget using Nat.strongRecOn with
  | ind budget ih =>
    intro node t h larger hle
    cases budget with
    | zero => cases h
    | succ budget =>
      obtain ⟨larger, rfl⟩ : ∃ k, larger = k + 1 := ⟨larger - 1, by omega⟩
      have hle : budget ≤ larger := Nat.le_of_succ_le_succ hle
      obtain ⟨s, span, hs, hspan, hunfolds⟩ := unfolds_of_tree? h
      have hbudget := ih budget (Nat.lt_succ_self _)
      have hentry : ∀ b ≤ budget, a.ReadsWithin b := fun b hb ↦ ih b (Nat.lt_succ_of_le hb)
      cases hunfolds with
      | identifier =>
        rw [binders_succ, flatMap_steps_identifier hs]
        exact .cons ⟨name?_of_shape? hs, hspan⟩ .nil
      | rest hargument =>
        rw [binders_succ, flatMap_steps_rest hs, ← binders_succ]
        exact hbudget.argument (Nat.le_succ_of_le hle) hargument
      | arrayPattern hitems =>
        rw [binders_succ_eq_targets hs (by simp) (by simp), targets, hs, bindings,
          itemBindings_eq_flatMap, List.flatMap_map]
        exact List.rel_flatMap hitems fun _ _ h ↦ hbudget.child hle h
      | objectPattern hitems =>
        rw [binders_succ_eq_targets hs (by simp) (by simp), targets, hs, bindings,
          entriesBindings_eq_flatMap, List.flatMap_map]
        exact List.rel_flatMap hitems fun _ _ h ↦ ReadsWithin.entry hentry hle h
      | importing hitems _ =>
        rw [binders_succ_eq_targets hs (by simp) (by simp), targets, hs, bindings,
          itemBindings_eq_flatMap, List.flatMap_map]
        exact List.rel_flatMap hitems fun _ _ h ↦ hbudget.child hle h
      | assignment hleft _ =>
        rw [binders_succ_eq_targets hs (by simp) (by simp), targets, hs]
        simpa [bindings] using hbudget.child hle hleft
      | specifier _ hlocal =>
        rw [binders_succ_eq_targets hs (by simp) (by simp), targets, hs]
        simpa [bindings] using hbudget.child hle hlocal
      | _ =>
        rw [binders_succ_eq_targets hs (by simp) (by simp), targets, hs]
        exact .nil

/-- In a descending arena the budget of the visit does not matter. -/
theorem reads_bindersOf {a : Arena} (ha : a.Descends) {budget : Nat} {node : Handle} {t : Tree}
    (h : a.tree? budget node = some t) : List.Forall₂ a.Reads (a.bindersOf node) t.bindings := by
  have hreads := a.readsWithin budget node t h (a.height node + 1 + budget) (Nat.le_add_left _ _)
  rwa [binders_eq_bindersOf ha (by omega)] at hreads

end Arena

end BoundNames

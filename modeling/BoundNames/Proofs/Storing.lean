import BoundNames.Proofs.Growth
import BoundNames.Tree
import Mathlib.Data.List.Basic

/-!
# Storing trees

Lowering a JSON value does to an arena what storing the tree of the value does
(`lower_actsAs_store`): all that the arena comes to hold depends on the tree alone. A tree has a
span, children in the order in which they are stored, and a draft for the handles of its children,
and storing it is storing the children and adding the draft (`store_eq`). So what is proved of
lowered arenas is proved of stored trees, by induction on children (`children_induction`) with no
cases for the forms of node. Storing is a run of additions (`builds_store`), one for each node of
the tree (`size_store`).
-/

set_option autoImplicit false
set_option relaxedAutoImplicit false

namespace BoundNames

namespace Tree

/-- Adds a node, as a step on an arena. -/
def place (span : Span) (draft : Draft) : StateM Arena Handle := fun a ↦ a.add span draft

mutual

/-- Stores a tree, children first, and gives the handle of its root. -/
def store : Tree → StateM Arena Handle
  | identifier span name => place span (.identifier name)
  | literal span raw => place span (.literal raw)
  | arrayPattern span elements => do
    let elements ← storeItems elements
    place span (.arrayPattern elements)
  | objectPattern span entries => do
    let entries ← storeItems entries
    place span (.objectPattern entries)
  | property span key value computed shorthand => do
    let key ← storeChild key
    let value ← storeChild value
    place span (.property ⟨key, value, computed, shorthand⟩)
  | rest span argument => do
    let argument ← storeChild argument
    place span (.rest argument)
  | assignment span left right => do
    let left ← storeChild left
    let right ← storeChild right
    place span (.assignment ⟨left, right⟩)
  | importing span specifiers source => do
    let specifiers ← storeItems specifiers
    let source ← storeChild source
    place span (.importing ⟨specifiers, source⟩)
  | specifier span form imported localName => do
    let imported ← storeChild imported
    let localName ← storeChild localName
    place span (.specifier form ⟨imported, localName⟩)
  | foreign span typeName => place span (.foreign typeName)

/-- Stores a child. A missing one has the absent handle. -/
def storeChild : Option Tree → StateM Arena Handle
  | none => pure .absent
  | some child => store child

/-- Stores children from left to right. -/
def storeItems : List (Option Tree) → StateM Arena (List Handle)
  | [] => pure []
  | child :: others => do
    let head ← storeChild child
    let tail ← storeItems others
    return head :: tail

end

mutual

/-- The number of nodes of a tree. -/
def size : Tree → Nat
  | identifier .. | literal .. | foreign .. => 1
  | arrayPattern _ elements => sizeItems elements + 1
  | objectPattern _ entries => sizeItems entries + 1
  | property _ key value _ _ => sizeChild key + sizeChild value + 1
  | rest _ argument => sizeChild argument + 1
  | assignment _ left right => sizeChild left + sizeChild right + 1
  | importing _ specifiers source => sizeItems specifiers + sizeChild source + 1
  | specifier _ _ imported localName => sizeChild imported + sizeChild localName + 1

/-- The number of nodes of a child. -/
def sizeChild : Option Tree → Nat
  | none => 0
  | some child => size child

/-- The number of nodes of all children in a list. -/
def sizeItems : List (Option Tree) → Nat
  | [] => 0
  | child :: others => sizeChild child + sizeItems others

end

/-! ### A tree by its children -/

/-- The span of the root. -/
def span : Tree → Span
  | identifier span _ | literal span _ | arrayPattern span _ | objectPattern span _
  | property span .. | rest span _ | assignment span .. | importing span .. | specifier span ..
  | foreign span _ => span

/-- The children of the root in the order in which they are stored. -/
def children : Tree → List (Option Tree)
  | identifier .. | literal .. | foreign .. => []
  | arrayPattern _ elements => elements
  | objectPattern _ entries => entries
  | property _ key value _ _ => [key, value]
  | rest _ argument => [argument]
  | assignment _ left right => [left, right]
  | importing _ specifiers source => specifiers ++ [source]
  | specifier _ _ imported localName => [imported, localName]

/-- The draft of the root, for the handles of its children. -/
def draft : Tree → List Handle → Draft
  | identifier _ name, _ => .identifier name
  | literal _ raw, _ => .literal raw
  | arrayPattern .., handles => .arrayPattern handles
  | objectPattern .., handles => .objectPattern handles
  | property _ _ _ computed shorthand, handles =>
    .property ⟨handles.getD 0 .absent, handles.getD 1 .absent, computed, shorthand⟩
  | rest .., handles => .rest (handles.getD 0 .absent)
  | assignment .., handles => .assignment ⟨handles.getD 0 .absent, handles.getD 1 .absent⟩
  | importing _ specifiers _, handles =>
    .importing ⟨handles.take specifiers.length, handles.getD specifiers.length .absent⟩
  | specifier _ form _ _, handles =>
    .specifier form ⟨handles.getD 0 .absent, handles.getD 1 .absent⟩
  | foreign _ typeName, _ => .foreign typeName

theorem children_draft {t : Tree} {handles : List Handle}
    (h : handles.length = t.children.length) : (t.draft handles).children = handles := by
  cases t with
  | identifier _ _ => exact (List.length_eq_zero_iff.1 h).symm
  | literal _ _ => exact (List.length_eq_zero_iff.1 h).symm
  | arrayPattern _ _ => rfl
  | objectPattern _ _ => rfl
  | property _ _ _ _ _ =>
    obtain ⟨x, y, rfl⟩ := List.length_eq_two.1 h
    rfl
  | rest _ _ =>
    obtain ⟨x, rfl⟩ := List.length_eq_one_iff.1 h
    rfl
  | assignment _ _ _ =>
    obtain ⟨x, y, rfl⟩ := List.length_eq_two.1 h
    rfl
  | importing _ specifiers _ =>
    rw [children, List.length_append, List.length_singleton] at h
    have hlast : specifiers.length < handles.length := by omega
    rw [draft, Shape.children, List.getD_eq_getElem?_getD, List.getElem?_eq_getElem hlast,
      Option.getD_some, ← List.take_succ_eq_append_getElem hlast, ← h, List.take_length]
  | specifier _ _ _ _ =>
    obtain ⟨x, y, rfl⟩ := List.length_eq_two.1 h
    rfl
  | foreign _ _ => exact (List.length_eq_zero_iff.1 h).symm

theorem sizeItems_append (items others : List (Option Tree)) :
    sizeItems (items ++ others) = sizeItems items + sizeItems others := by
  induction items with
  | nil => simp [sizeItems]
  | cons child items ih => simp [sizeItems, ih, Nat.add_assoc]

theorem size_eq (t : Tree) : t.size = sizeItems t.children + 1 := by
  cases t <;> simp [size, children, sizeItems, sizeItems_append]

theorem size_le_sizeItems {items : List (Option Tree)} {c : Tree} (h : some c ∈ items) :
    c.size ≤ sizeItems items := by
  induction items with
  | nil => cases h
  | cons child others ih =>
    rw [sizeItems]
    rcases List.mem_cons.1 h with rfl | h
    · exact Nat.le_add_right _ _
    · exact Nat.le_trans (ih h) (Nat.le_add_left _ _)

/-- What holds of every tree whose children it holds of holds of every tree. -/
theorem children_induction {P : Tree → Prop} (h : ∀ t, (∀ c, some c ∈ t.children → P c) → P t)
    (t : Tree) : P t := by
  induction hsize : t.size using Nat.strongRecOn generalizing t with
  | ind n ih =>
    refine h t fun c hc ↦ ih c.size ?_ c rfl
    have hle := size_le_sizeItems hc
    rw [size_eq] at hsize
    omega

/-! ### Storing children, then the root -/

theorem storeItems_none_cons (others : List (Option Tree)) (a : Arena) :
    storeItems (none :: others) a =
      (.absent :: (storeItems others a).1, (storeItems others a).2) := rfl

theorem storeItems_some_cons (t : Tree) (others : List (Option Tree)) (a : Arena) :
    storeItems (some t :: others) a =
      ((t.store a).1 :: (storeItems others (t.store a).2).1,
        (storeItems others (t.store a).2).2) := rfl

theorem storeItems_append (items others : List (Option Tree)) (a : Arena) :
    storeItems (items ++ others) a =
      ((storeItems items a).1 ++ (storeItems others (storeItems items a).2).1,
        (storeItems others (storeItems items a).2).2) := by
  induction items generalizing a with
  | nil => rfl
  | cons child items ih =>
    cases child with
    | none =>
      rw [List.cons_append, storeItems_none_cons, ih, storeItems_none_cons, List.cons_append]
    | some t =>
      rw [List.cons_append, storeItems_some_cons, ih, storeItems_some_cons, List.cons_append]

theorem length_storeItems (items : List (Option Tree)) (a : Arena) :
    (storeItems items a).1.length = items.length := by
  induction items generalizing a with
  | nil => rfl
  | cons child others ih =>
    cases child with
    | none => rw [storeItems_none_cons, List.length_cons, ih, List.length_cons]
    | some t => rw [storeItems_some_cons, List.length_cons, ih, List.length_cons]

/-- Storing a tree is storing its children and adding the draft of its root. -/
theorem store_eq (t : Tree) (a : Arena) :
    t.store a =
      (storeItems t.children a).2.add t.span (t.draft (storeItems t.children a).1) := by
  cases t with
  | importing span specifiers source =>
    have hlength := length_storeItems specifiers a
    rw [children, storeItems_append, draft, ← hlength]
    simp only [List.take_left, List.getD_eq_getElem?_getD, Nat.le_refl,
      List.getElem?_append_right, Nat.sub_self]
    rfl
  | _ => rfl

/-- A tree and a list of trees are stored in turn: what holds when the children have been stored
holds of the tree, and what holds of the head and of the rest, in the arena that the head leaves,
holds of the list. -/
theorem storing_induction {P : Tree → Arena → Prop} {Q : List (Option Tree) → Arena → Prop}
    (node : ∀ t a, Q t.children a → P t a) (nil : ∀ a, Q [] a)
    (hole : ∀ others a, Q others a → Q (none :: others) a)
    (cons : ∀ t others a, P t a → Q others (t.store a).2 → Q (some t :: others) a) :
    (∀ t a, P t a) ∧ ∀ items a, Q items a := by
  have hitems : ∀ items, (∀ c, some c ∈ items → ∀ a, P c a) → ∀ a, Q items a := by
    intro items
    induction items with
    | nil => exact fun _ a ↦ nil a
    | cons child others ih =>
      intro htrees a
      have hothers := ih fun c hc ↦ htrees c (List.mem_cons_of_mem _ hc)
      cases child with
      | none => exact hole others a (hothers a)
      | some t => exact cons t others a (htrees t List.mem_cons_self a) (hothers _)
  have htree : ∀ t a, P t a :=
    children_induction (P := fun t ↦ ∀ a, P t a) fun t ih a ↦ node t a (hitems _ ih a)
  exact ⟨htree, fun items ↦ hitems items fun c _ ↦ htree c⟩

theorem builds_store_and_storeItems :
    (∀ (t : Tree) (a : Arena), a.Builds (t.store a).2) ∧
      ∀ (items : List (Option Tree)) (a : Arena), a.Builds (storeItems items a).2 := by
  refine storing_induction ?_ (fun _ ↦ .refl) (fun _ _ hothers ↦ hothers) ?_
  · intro t a hchildren
    rw [store_eq]
    exact hchildren.add _ _
  · intro t others a ht hothers
    exact ht.trans hothers

theorem builds_store (t : Tree) (a : Arena) : a.Builds (t.store a).2 :=
  builds_store_and_storeItems.1 t a

theorem builds_storeItems (items : List (Option Tree)) (a : Arena) :
    a.Builds (storeItems items a).2 :=
  builds_store_and_storeItems.2 items a

theorem size_store_and_storeItems :
    (∀ (t : Tree) (a : Arena), (t.store a).2.size = a.size + t.size) ∧
      ∀ (items : List (Option Tree)) (a : Arena),
        (storeItems items a).2.size = a.size + sizeItems items := by
  refine storing_induction ?_ (fun _ ↦ rfl) ?_ ?_
  · intro t a hchildren
    rw [store_eq, Arena.size_add, hchildren, size_eq, Nat.add_assoc]
  · intro others a hothers
    rw [storeItems_none_cons, hothers]
    simp [sizeItems, sizeChild]
  · intro t others a ht hothers
    rw [storeItems_some_cons, hothers, ht, Nat.add_assoc]
    rfl

/-- Storing a tree adds as many nodes as the tree has. -/
theorem size_store (t : Tree) (a : Arena) : (t.store a).2.size = a.size + t.size :=
  size_store_and_storeItems.1 t a

theorem size_storeItems (items : List (Option Tree)) (a : Arena) :
    (storeItems items a).2.size = a.size + sizeItems items :=
  size_store_and_storeItems.2 items a

end Tree

namespace Lowering

open BoundNames.Tree

/-- A step on a session gives the result and leaves the arena of a step on the arena alone. -/
def ActsAs {α : Type} (m : StateM Session α) (n : StateM Arena α) : Prop :=
  ∀ s : Session, n s.arena = ((m s).1, (m s).2.arena)

namespace ActsAs

variable {α β : Type}

protected theorem pure (x : α) : ActsAs (pure x) (pure x) :=
  fun _ ↦ rfl

protected theorem bind {m : StateM Session α} {n : StateM Arena α} {f : α → StateM Session β}
    {g : α → StateM Arena β} (hm : ActsAs m n) (hf : ∀ x, ActsAs (f x) (g x)) :
    ActsAs (m >>= f) (n >>= g) := by
  intro s
  change g (n s.arena).1 (n s.arena).2 = _
  rw [hm s]
  exact hf (m s).1 (m s).2

theorem place (span : Span) (draft : Draft) :
    ActsAs (Session.add span draft) (Tree.place span draft) :=
  fun _ ↦ rfl

/-- A report changes no arena. -/
theorem report_bind (e : Event) {f : Unit → StateM Session α} {n : StateM Arena α}
    (hf : ActsAs (f ()) n) : ActsAs (Session.report e >>= f) n :=
  fun s ↦ hf { s with events := s.events.push e }

end ActsAs

mutual

/-- Lowering a value does to the arena what storing its tree does. -/
theorem lower_actsAs_store : ∀ v : Json, ActsAs (lower v) (ofJson v).store
  | .object fields => by
    rw [lower, ofJson]
    cases Json.textField? "type" fields with
    | none => exact (ActsAs.place _ _).report_bind _
    | some type =>
      dsimp only
      cases Kind.ofTypeName type with
      | unknown => exact (ActsAs.place _ _).report_bind _
      | identifier =>
        dsimp only
        cases Json.textField? "name" fields with
        | none => exact (ActsAs.place _ _).report_bind _
        | some name => exact ActsAs.place _ _
      | literal => exact ActsAs.place _ _
      | arrayPattern =>
        exact (lowerList_actsAs_store "elements" fields).bind fun _ ↦ ActsAs.place _ _
      | objectPattern =>
        exact (lowerList_actsAs_store "properties" fields).bind fun _ ↦ ActsAs.place _ _
      | property =>
        exact (lowerField_actsAs_store "key" fields).bind fun _ ↦
          (lowerField_actsAs_store "value" fields).bind fun _ ↦ ActsAs.place _ _
      | restElement =>
        exact (lowerField_actsAs_store "argument" fields).bind fun _ ↦ ActsAs.place _ _
      | assignmentPattern =>
        exact (lowerField_actsAs_store "left" fields).bind fun _ ↦
          (lowerField_actsAs_store "right" fields).bind fun _ ↦ ActsAs.place _ _
      | importDeclaration =>
        exact (lowerList_actsAs_store "specifiers" fields).bind fun _ ↦
          (lowerField_actsAs_store "source" fields).bind fun _ ↦ ActsAs.place _ _
      | importSpecifier =>
        exact (lowerField_actsAs_store "imported" fields).bind fun _ ↦
          (lowerField_actsAs_store "local" fields).bind fun _ ↦ ActsAs.place _ _
      -- The two other forms of specifier store a missing child where the first stores the name.
      | importDefaultSpecifier =>
        exact (lowerField_actsAs_store "local" fields).bind fun _ ↦ ActsAs.place _ _
      | importNamespaceSpecifier =>
        exact (lowerField_actsAs_store "local" fields).bind fun _ ↦ ActsAs.place _ _
  | .null | .bool _ | .number _ | .string _ | .array _ => (ActsAs.place _ _).report_bind _

theorem lowerField_actsAs_store (key : String) : ∀ fields : List (String × Json),
    ActsAs (lowerField key fields) (storeChild (ofField key fields))
  | [] => ActsAs.pure _
  | (k, v) :: others => by
    rw [lowerField, ofField]
    split
    · split
      · exact ActsAs.pure _
      · exact lower_actsAs_store v
    · exact lowerField_actsAs_store key others

theorem lowerList_actsAs_store (key : String) : ∀ fields : List (String × Json),
    ActsAs (lowerList key fields) (storeItems (ofList key fields))
  | [] => ActsAs.pure _
  | (k, v) :: others => by
    unfold lowerList ofList
    split
    · cases v with
      | array items => exact lowerItems_actsAs_store items
      | _ => exact ActsAs.pure _
    · exact lowerList_actsAs_store key others

theorem lowerItems_actsAs_store : ∀ items : List Json,
    ActsAs (lowerItems items) (storeItems (ofItems items))
  | [] => ActsAs.pure _
  | v :: others => by
    have htail := lowerItems_actsAs_store others
    rw [lowerItems, ofItems]
    split
    · exact (ActsAs.pure _).bind fun _ ↦ htail.bind fun _ ↦ ActsAs.pure _
    · exact (lower_actsAs_store v).bind fun _ ↦ htail.bind fun _ ↦ ActsAs.pure _

end

theorem fst_lower (v : Json) (s : Session) : (lower v s).1 = ((ofJson v).store s.arena).1 := by
  rw [lower_actsAs_store v s]

theorem arena_lower (v : Json) (s : Session) :
    (lower v s).2.arena = ((ofJson v).store s.arena).2 := by
  rw [lower_actsAs_store v s]

end Lowering

end BoundNames

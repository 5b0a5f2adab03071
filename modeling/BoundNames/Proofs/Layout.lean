import BoundNames.Proofs.Fields
import BoundNames.Proofs.Nodes

/-!
# The layout of a stored tree

A tree that is stored from position `base` on takes up one block of positions: its children stand
there one after the other, and the root follows them, at the end of the block (`rootAt`). `Laid`
says that an arena holds a tree in this way, node by node. Storing lays a tree out (`laid_store`),
what is laid out stays so while the arena grows (`Laid.of_extends`), and a tree that is laid out is
the one that unfolds from its root (`Laid.tree?_eq_some`). Nothing before the block changes, not
even a parent (`parents_isPrefix_store`).

Lowering stores the tree of a value, so `lower_faithful` is all of this for lowered values, with
what that tree is.
-/

set_option autoImplicit false
set_option relaxedAutoImplicit false

namespace BoundNames

namespace Tree

/-- The handle of the root of a tree that is stored from a position on. -/
def rootAt (base : Nat) (t : Tree) : Handle :=
  .ofNat (base + sizeItems t.children)

/-- The handles of children that are stored one after the other from a position on. -/
def handlesAt : Nat → List (Option Tree) → List Handle
  | _, [] => []
  | base, none :: others => .absent :: handlesAt base others
  | base, some t :: others => t.rootAt base :: handlesAt (base + t.size) others

theorem fst_store (t : Tree) (a : Arena) : (t.store a).1 = t.rootAt a.size := by
  rw [store_eq, Arena.fst_add, size_storeItems, rootAt]

theorem fst_storeItems (items : List (Option Tree)) (a : Arena) :
    (storeItems items a).1 = handlesAt a.size items := by
  induction items generalizing a with
  | nil => rfl
  | cons child others ih =>
    cases child with
    | none => rw [storeItems_none_cons, ih, handlesAt]
    | some t => rw [storeItems_some_cons, ih, fst_store, size_store, handlesAt]

theorem length_handlesAt (base : Nat) (items : List (Option Tree)) :
    (handlesAt base items).length = items.length := by
  induction items generalizing base with
  | nil => rfl
  | cons child others ih => cases child <;> simp [handlesAt, ih]

theorem toNat_rootAt {base : Nat} {t : Tree} (h : base + t.size ≤ UInt32.size) :
    (t.rootAt base).toNat + 1 = base + t.size := by
  rw [size_eq] at h ⊢
  rw [rootAt, Handle.toNat_ofNat_of_lt (by omega)]
  omega

/-- Children that are stored in a block have handles of positions in the block. -/
theorem mem_handlesAt {base : Nat} {items : List (Option Tree)} {child : Handle}
    (h : child ∈ handlesAt base items) (hsize : base + sizeItems items ≤ UInt32.size) :
    child = .absent ∨ base ≤ child.toNat ∧ child.toNat < base + sizeItems items := by
  induction items generalizing base with
  | nil => cases h
  | cons item others ih =>
    cases item with
    | none =>
      simp only [sizeItems, sizeChild, Nat.zero_add] at hsize ⊢
      rcases List.mem_cons.1 h with rfl | h
      · exact .inl rfl
      · exact ih h hsize
    | some t =>
      simp only [sizeItems, sizeChild] at hsize ⊢
      rcases List.mem_cons.1 h with rfl | h
      · have hroot := toNat_rootAt (by omega : base + t.size ≤ UInt32.size)
        have hpos := t.size_eq
        exact .inr (by omega)
      · exact (ih h (by omega)).imp_right fun hin ↦ by omega

end Tree

namespace Arena

open BoundNames.Tree

mutual

/-- The arena holds the nodes of a tree in the block from a position on, each where it is stored. -/
inductive Laid (a : Arena) : Nat → Tree → Prop where
  | node {base : Nat} {t : Tree} (below : LaidItems a base t.children)
    (root : a.node? (t.rootAt base) = some (t.span, t.draft (handlesAt base t.children))) :
    Laid a base t

/-- The arena holds children one after the other. -/
inductive LaidItems (a : Arena) : Nat → List (Option Tree) → Prop where
  | nil {base : Nat} : LaidItems a base []
  | hole {base : Nat} {others : List (Option Tree)} (tail : LaidItems a base others) :
    LaidItems a base (none :: others)
  | cons {base : Nat} {t : Tree} {others : List (Option Tree)} (head : Laid a base t)
    (tail : LaidItems a (base + t.size) others) : LaidItems a base (some t :: others)

end

mutual

theorem Laid.of_extends {a b : Arena} (ha : a.Sound) (hab : a.Extends b) {base : Nat} {t : Tree} :
    a.Laid base t → b.Laid base t
  | .node below root => .node (below.of_extends ha hab) (hab.node? ha root)

theorem LaidItems.of_extends {a b : Arena} (ha : a.Sound) (hab : a.Extends b) {base : Nat}
    {items : List (Option Tree)} : a.LaidItems base items → b.LaidItems base items
  | .nil => .nil
  | .hole tail => .hole (tail.of_extends ha hab)
  | .cons head tail => .cons (head.of_extends ha hab) (tail.of_extends ha hab)

end

mutual

/-- A tree that is laid out unfolds from its root, with a budget for each of its nodes. -/
theorem Laid.tree?_eq_some {a : Arena} {base : Nat} {t : Tree} :
    a.Laid base t → ∀ {budget : Nat}, t.size ≤ budget → a.tree? budget (t.rootAt base) = some t
  | .node below root, budget, hbudget => by
    rw [size_eq] at hbudget
    obtain ⟨budget, rfl⟩ : ∃ b, budget = b + 1 := ⟨budget - 1, by omega⟩
    rw [tree?_succ, root, Option.bind_some]
    exact tree?_draft (below.map_child? (by omega))

theorem LaidItems.map_child? {a : Arena} {base : Nat} {items : List (Option Tree)} :
    a.LaidItems base items → ∀ {budget : Nat}, sizeItems items ≤ budget →
      (handlesAt base items).map (child? (a.tree? budget)) = items.map some
  | .nil, _, _ => rfl
  | .hole tail, budget, hbudget => by
    simp only [sizeItems, sizeChild, Nat.zero_add] at hbudget
    rw [handlesAt, List.map_cons, tail.map_child? hbudget, List.map_cons]
    rfl
  | .cons (t := t) head tail, budget, hbudget => by
    simp only [sizeItems, sizeChild] at hbudget
    have hroot : t.rootAt base ≠ .absent := by
      cases head with
      | node _ root => exact ne_absent_of_node? root
    rw [handlesAt, List.map_cons, tail.map_child? (by omega), List.map_cons, child?,
      head.tree?_eq_some (by omega), if_neg (mt Handle.isAbsent_iff.1 hroot), Option.map_some]

end

/-- The root of a tree that is laid out has the children of the tree where they are laid out. -/
theorem Laid.exists_shape {a : Arena} {base : Nat} {t : Tree} (h : a.Laid base t) :
    ∃ s, a.shape? (t.rootAt base) = some s ∧ s.children = handlesAt base t.children := by
  cases h with
  | node _ root =>
    obtain ⟨_, s, -, hs, -, hdraft⟩ := node?_eq_some_iff.1 root
    refine ⟨s, hs, ?_⟩
    rw [← Shape.children_mapName, hdraft, children_draft (length_handlesAt _ _)]

end Arena

/-! ### Storing lays a tree out -/

theorem Shape.mapChildren_eq_self {Name : Type} {f : Handle → Handle} {s : Shape Name}
    (h : ∀ child ∈ s.children, f child = child) : s.mapChildren f = s := by
  have hlist : ∀ l : List Handle, (∀ child ∈ l, f child = child) → l.map f = l :=
    fun l hl ↦ (List.map_congr_left hl).trans (List.map_id l)
  cases s with
  | arrayPattern elements => rw [mapChildren, hlist elements h]
  | objectPattern entries => rw [mapChildren, hlist entries h]
  | importing data =>
    have hspecifiers := hlist data.specifiers fun child hchild ↦
      h child (List.mem_append_left _ hchild)
    rw [mapChildren, hspecifiers, h data.source (by simp [children])]
  | _ => simp_all [mapChildren, children]

namespace Tree

/-- The children of a stored tree precede its root, so the root keeps all of them. -/
theorem mapChildren_keep_draft {t : Tree} {a : Arena}
    (hsize : a.size + sizeItems t.children ≤ UInt32.size) :
    (t.draft (handlesAt a.size t.children)).mapChildren (storeItems t.children a).2.keep =
      t.draft (handlesAt a.size t.children) := by
  refine Shape.mapChildren_eq_self fun child hchild ↦ Arena.keep_of_admits ?_
  rw [children_draft (length_handlesAt _ _)] at hchild
  simp only [Arena.admits, size_storeItems, Bool.or_eq_true, Handle.isAbsent_iff, decide_eq_true_eq]
  exact (mem_handlesAt hchild hsize).imp_right And.right

theorem laid_store_and_storeItems :
    (∀ (t : Tree) (a : Arena), a.Sound → a.size + t.size < Arena.nodeLimit →
        (t.store a).2.Laid a.size t) ∧
      ∀ (items : List (Option Tree)) (a : Arena), a.Sound →
        a.size + sizeItems items < Arena.nodeLimit →
          (storeItems items a).2.LaidItems a.size items := by
  refine storing_induction ?_ (fun _ _ _ ↦ .nil) ?_ ?_
  · intro t a hitems ha hsize
    have hlimit := Arena.nodeLimit_lt
    rw [size_eq] at hsize
    have hsound := (builds_storeItems t.children a).sound ha
    have hroot := Arena.node?_add_self hsound t.span (t.draft (storeItems t.children a).1)
      (by rw [size_storeItems]; omega)
    rw [size_storeItems, fst_storeItems,
      mapChildren_keep_draft (by omega)] at hroot
    rw [store_eq, fst_storeItems]
    exact .node ((hitems ha (by omega)).of_extends hsound (Arena.extends_add _ _ _)) hroot
  · intro others a hothers ha hsize
    simp only [sizeItems, sizeChild, Nat.zero_add] at hsize
    exact .hole (hothers ha hsize)
  · intro t others a ht hothers ha hsize
    simp only [sizeItems, sizeChild] at hsize
    have hsound := (builds_store t a).sound ha
    have htail := hothers hsound (by rw [size_store]; omega)
    rw [size_store] at htail
    exact .cons ((ht ha (by omega)).of_extends hsound (builds_storeItems _ _).toExtends) htail

/-- Below the limit a stored tree is laid out from the end of the arena on. -/
theorem laid_store {t : Tree} {a : Arena} (ha : a.Sound)
    (hsize : a.size + t.size < Arena.nodeLimit) : (t.store a).2.Laid a.size t :=
  laid_store_and_storeItems.1 t a ha hsize

theorem laid_storeItems {items : List (Option Tree)} {a : Arena} (ha : a.Sound)
    (hsize : a.size + sizeItems items < Arena.nodeLimit) :
    (storeItems items a).2.LaidItems a.size items :=
  laid_store_and_storeItems.2 items a ha hsize

theorem parents_store_and_storeItems :
    (∀ (t : Tree) (a : Arena), a.Sound → a.size + t.size < Arena.nodeLimit →
        ∀ i < a.size, (t.store a).2.parents[i]? = a.parents[i]?) ∧
      ∀ (items : List (Option Tree)) (a : Arena), a.Sound →
        a.size + sizeItems items < Arena.nodeLimit →
          ∀ i < a.size, (storeItems items a).2.parents[i]? = a.parents[i]? := by
  refine storing_induction ?_ (fun _ _ _ _ _ ↦ rfl) ?_ ?_
  · intro t a hitems ha hsize i hi
    have hlimit := Arena.nodeLimit_lt
    rw [size_eq] at hsize
    have hsound := (builds_storeItems t.children a).sound ha
    have hold : i < (storeItems t.children a).2.parents.size := by
      rw [hsound.size_parents, size_storeItems]
      omega
    rw [store_eq, Arena.parents_add, Arena.getElem?_foldl_adopt, Array.getElem?_push,
      if_neg (Nat.ne_of_lt hold)]
    · exact hitems ha (by omega) i hi
    · -- The children of the root stand in the block.
      intro child hchild
      have hkeep := mapChildren_keep_draft (t := t) (a := a) (by omega)
      rw [Arena.children_stored, ← Shape.children_mapChildren, fst_storeItems, hkeep,
        children_draft (length_handlesAt _ _)] at hchild
      exact (mem_handlesAt hchild (by omega)).imp_right fun hin ↦ by omega
  · intro others a hothers ha hsize
    simp only [sizeItems, sizeChild, Nat.zero_add] at hsize
    exact hothers ha hsize
  · intro t others a ht hothers ha hsize i hi
    simp only [sizeItems, sizeChild] at hsize
    rw [storeItems_some_cons, ← ht ha (by omega) i hi]
    exact hothers ((builds_store t a).sound ha) (by rw [size_store]; omega) i
      (by rw [size_store]; omega)

/-- Storing a tree changes the parent of no node that was there. -/
theorem parents_isPrefix_store {t : Tree} {a : Arena} (ha : a.Sound)
    (hsize : a.size + t.size < Arena.nodeLimit) :
    a.parents.toList <+: (t.store a).2.parents.toList := by
  rw [List.prefix_iff_getElem?]
  intro i hi
  rw [Array.length_toList, ha.size_parents] at hi
  rw [Array.getElem?_toList, parents_store_and_storeItems.1 t a ha hsize i hi,
    ← Array.getElem?_toList, List.getElem?_eq_getElem]

end Tree

namespace Lowering

open BoundNames.Tree

/-- A value that is lowered into a sound arena is laid out from the end of the arena on. -/
theorem laid_lower {s : Session} (hs : s.arena.Sound) {v : Json}
    (hsize : (lower v s).2.arena.size < Arena.nodeLimit) :
    (lower v s).2.arena.Laid s.arena.size (ofJson v) := by
  rw [arena_lower] at hsize ⊢
  rw [size_store] at hsize
  exact laid_store hs hsize

theorem sound_lower {s : Session} (hs : s.arena.Sound) (v : Json) :
    (lower v s).2.arena.Sound := by
  rw [arena_lower]
  exact (builds_store _ _).sound hs

theorem fst_lower_eq_rootAt (v : Json) (s : Session) :
    (lower v s).1 = (ofJson v).rootAt s.arena.size := by
  rw [fst_lower, fst_store]

theorem size_lower (v : Json) (s : Session) :
    (lower v s).2.arena.size = s.arena.size + (ofJson v).size := by
  rw [arena_lower, size_store]

/-- Lowering a value in a reachable arena appends one block of nodes, as many as the tree of the
value has, the last of which is the root. Every header, every entry of a pool, every name and every
parent stays where it was and every node says what it said. From the root unfolds the tree of the
value: that of an object is the one that its fields describe, and that of any other value is a
foreign node. -/
theorem lower_faithful {s : Session} (hs : s.arena.Reachable) (v : Json)
    (hsize : (lower v s).2.arena.size < Arena.nodeLimit) :
    (lower v s).2.arena.size = s.arena.size + (ofJson v).size ∧
      s.arena.size ≤ (lower v s).1.toNat ∧
      (lower v s).1.toNat + 1 = (lower v s).2.arena.size ∧
      s.arena.Extends (lower v s).2.arena ∧
      s.arena.parents.toList <+: (lower v s).2.arena.parents.toList ∧
      (∀ node x, s.arena.node? node = some x → (lower v s).2.arena.node? node = some x) ∧
      (∀ budget, (ofJson v).size ≤ budget →
        (lower v s).2.arena.tree? budget (lower v s).1 = some (ofJson v)) ∧
      (∀ fields, Shows fields (ofJson (.object fields))) ∧
      ∀ w : Json, (∀ fields, w ≠ .object fields) → ofJson w = .foreign .nowhere "" := by
  rw [fst_lower, fst_store]
  rw [arena_lower] at hsize ⊢
  rw [size_store] at hsize ⊢
  have hlimit := Arena.nodeLimit_lt
  have hroot := toNat_rootAt (by omega : s.arena.size + (ofJson v).size ≤ UInt32.size)
  have hpos := (ofJson v).size_eq
  have hextends := (builds_store (ofJson v) s.arena).toExtends
  exact ⟨rfl, by omega, hroot, hextends, parents_isPrefix_store hs.sound hsize,
    fun _ _ hx ↦ hextends.node? hs.sound hx,
    fun _ hbudget ↦ (laid_store hs.sound hsize).tree?_eq_some hbudget,
    shows_ofJson, fun _ hother ↦ ofJson_eq_foreign hother⟩

/-- The value of the pattern `[a, , ...b]`, whose `b` has no span. -/
def holedPattern : Json :=
  .object [("type", "ArrayPattern"), ("elements", .array [
    .object [("type", "Identifier"), ("name", "a"), ("start", .ofNat 1), ("end", .ofNat 2)],
    .null,
    .object [("type", "RestElement"), ("argument",
      .object [("type", "Identifier"), ("name", "b")])]])]

/-- The value of an entry `["k"]: a` with places of two sorts. Its literal has no `raw`, and what
should be its flag `shorthand` is a text. -/
def computedEntry : Json :=
  .object [("type", "Property"), ("range", .array [.ofNat 2, .ofNat 10]), ("computed", true),
    ("shorthand", "true"),
    ("key", .object [("type", "Literal"), ("value", "k"), ("start", .ofNat 3), ("end", .ofNat 6)]),
    ("value", .object [("type", "Identifier"), ("name", "a")])]

/-- An arena of one node, to lower values into. -/
def startedSession : Session where
  arena := Edit.arenaAfter {} [.add .nowhere (.literal "0")]

theorem tree?_lower_holedPattern :
    (lower holedPattern startedSession).1 = .ofNat 4 ∧
      (lower holedPattern startedSession).2.arena.tree? 4 (.ofNat 4) =
        some (.arrayPattern .nowhere [some (.identifier ⟨1, 2⟩ "a"), none,
          some (.rest .nowhere (some (.identifier .nowhere "b")))]) ∧
      (lower computedEntry startedSession).1 = .ofNat 3 ∧
      (lower computedEntry startedSession).2.arena.tree? 3 (.ofNat 3) =
        some (.property ⟨2, 10⟩ (some (.literal ⟨3, 6⟩ "\"k\""))
          (some (.identifier .nowhere "a")) true false) := by
  have hroot : (lower holedPattern startedSession).1 = .ofNat 4 := by decide +kernel
  have hentry : (lower computedEntry startedSession).1 = .ofNat 3 := by decide +kernel
  have hreachable : startedSession.arena.Reachable := ⟨{}, _, .inl rfl, rfl⟩
  obtain ⟨-, -, -, -, -, -, htree, -⟩ := lower_faithful hreachable holedPattern (by decide +kernel)
  obtain ⟨-, -, -, -, -, -, hunfolds, -⟩ :=
    lower_faithful hreachable computedEntry (by decide +kernel)
  rw [hroot] at htree
  rw [hentry] at hunfolds
  exact ⟨hroot, htree 4 (by decide +kernel), hentry, hunfolds 3 (by decide +kernel)⟩

end Lowering

end BoundNames

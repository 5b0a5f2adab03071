import BoundNames.Proofs.Growth

/-!
# The representation invariant of an arena

An arena is eleven arrays and a table of names that nothing ties together but the code that fills
them. `Sound` is what every addition keeps of them, whatever handles it is given: parents and
headers stand side by side, the nodes of each family have the slots of their pool in order, children
precede their parents, and symbols have names. Slots are words, and the invariant says of a slot
that it is the word for its place, so it needs no bound on the size of the arena. Every node that a
handle can name has its data (`Sound.exists_shape`).
-/

set_option autoImplicit false
set_option relaxedAutoImplicit false

namespace BoundNames.Arena

/-- An element that a filter keeps stands after as many elements as the filter keeps before it. -/
theorem getElem?_filter_of_getElem? {α : Type} {p : α → Bool} {l : List α} {i : Nat} {x : α}
    (h : l[i]? = some x) (hp : p x = true) : (l.filter p)[(l.take i).countP p]? = some x := by
  induction l generalizing i with
  | nil => cases h
  | cons y others ih =>
    cases i with
    | zero =>
      obtain rfl : y = x := by simpa using h
      simp [hp]
    | succ i =>
      have hothers := ih (i := i) (by simpa using h)
      by_cases hy : p y = true
      · simpa [hy] using hothers
      · simpa [hy] using hothers

/-- The slots of the nodes of a family, in the order of the nodes. -/
def slots (a : Arena) (f : Family) : List UInt32 :=
  (a.headers.toList.filter fun n ↦ n.kind.family = f).map Header.slot

/-- The number of nodes of a family before a position. -/
def rank (a : Arena) (f : Family) (i : Nat) : Nat :=
  (a.headers.toList.take i).countP fun n ↦ n.kind.family = f

theorem rank_le (a : Arena) (f : Family) (i : Nat) : a.rank f i ≤ i :=
  Nat.le_trans List.countP_le_length (List.length_take_le _ _)

/-- A node counts for the positions behind it. -/
theorem rank_lt_rank {a : Arena} {i j : Nat} {n : Header} (hn : a.headers[i]? = some n)
    (hij : i < j) : a.rank n.kind.family i < a.rank n.kind.family j := by
  rw [← Array.getElem?_toList] at hn
  obtain ⟨hi, rfl⟩ := List.getElem?_eq_some_iff.1 hn
  have hnext : a.rank a.headers.toList[i].kind.family (i + 1) =
      a.rank a.headers.toList[i].kind.family i + 1 := by
    simp [rank, List.take_succ_eq_append_getElem hi]
  have hmono : a.rank a.headers.toList[i].kind.family (i + 1) ≤
      a.rank a.headers.toList[i].kind.family j :=
    (List.take_prefix_take_left (Nat.succ_le_of_lt hij)).sublist.countP_le
  omega

/-- What ties the parts of an arena together. -/
structure Sound (a : Arena) : Prop where
  size_parents : a.parents.size = a.size
  slots_eq (f : Family) : a.slots f = (List.range (a.pools.count f)).map UInt32.ofNat
  children_lt {node : Handle} {s : Shape Symbol} (hs : a.shape? node = some s) {child : Handle}
    (hchild : child ∈ s.children) : child = .absent ∨ child.toNat < node.toNat
  symbol_lt {symbol : Symbol} (h : symbol ∈ a.pools.identifiers) : symbol.toNat < a.symbols.size
  size_symbols_le : a.symbols.size ≤ a.pools.count .identifiers + 21

namespace Sound

variable {a : Arena}

theorem count_le_size (ha : a.Sound) (f : Family) : a.pools.count f ≤ a.size := by
  have hlength := congrArg List.length (ha.slots_eq f)
  simp only [slots, List.length_map, List.length_range] at hlength
  rw [← hlength]
  exact List.length_filter_le _ _

/-- The slot of a node is the word for its rank in its family, a place of its pool. -/
theorem slot_eq (ha : a.Sound) {i : Nat} {n : Header} (hn : a.headers[i]? = some n) :
    a.rank n.kind.family i < a.pools.count n.kind.family ∧
      n.slot = .ofNat (a.rank n.kind.family i) := by
  rw [← Array.getElem?_toList] at hn
  have hslot : (a.slots n.kind.family)[a.rank n.kind.family i]? = some n.slot := by
    rw [slots, List.getElem?_map, rank, getElem?_filter_of_getElem? hn (by simp), Option.map_some]
  rw [ha.slots_eq, List.getElem?_map, Option.map_eq_some_iff] at hslot
  obtain ⟨r, hplace, hword⟩ := hslot
  obtain ⟨hlt, hr⟩ := List.getElem?_eq_some_iff.1 hplace
  rw [List.getElem_range] at hr
  rw [List.length_range] at hlt
  exact ⟨hlt, by rw [← hword, hr]⟩

/-- Every node at a position that a handle can name has its data. -/
theorem exists_shape (ha : a.Sound) {i : Nat} {n : Header} (hn : a.headers[i]? = some n)
    (hi : i < UInt32.size - 1) : ∃ s, a.pools.shape? n = some s := by
  obtain ⟨hlt, hslot⟩ := ha.slot_eq hn
  rw [Pools.shape?_of_slot_eq _ (Nat.lt_of_le_of_lt (a.rank_le _ i) hi) hslot,
    ← Option.ne_none_iff_exists', ne_eq, Pools.payload?_eq_none_iff, Nat.not_le]
  exact hlt

theorem exists_shape? (ha : a.Sound) {node : Handle} {n : Header}
    (hn : a.header? node = some n) : ∃ s, a.shape? node = some s := by
  obtain ⟨hnode, hplace⟩ := (header?_eq_some_iff a node n).1 hn
  rw [shape?, hn, Option.bind_some]
  exact ha.exists_shape hplace (Handle.ne_absent_iff.1 hnode)

end Sound

/-! ### An addition keeps the invariant -/

section Addition

variable {a : Arena} (ha : a.Sound) (span : Span) (draft : Draft)

include ha

/-- A new node has the shape that is stored for its draft, if a word is left for its handle. -/
theorem shape?_add_self (hsize : a.size < UInt32.size - 1) :
    (a.add span draft).2.shape? (.ofNat a.size) = some (a.stored draft) := by
  have hcount : a.pools.count draft.kind.family < UInt32.size - 1 :=
    Nat.lt_of_le_of_lt (ha.count_le_size _) hsize
  rw [shape?, header?_add_self span draft hsize, Option.bind_some,
    Pools.shape?_of_slot_eq _ hcount rfl, pools_add,
    ← a.kind_stored draft]
  exact Pools.payload?_insert_self _ _

theorem slots_add_eq (f : Family) :
    (a.add span draft).2.slots f =
      (List.range ((a.add span draft).2.pools.count f)).map UInt32.ofNat := by
  rw [slots, headers_add, Array.toList_push, List.filter_append, List.map_append, ← slots,
    ha.slots_eq, pools_add, Pools.count_insert, kind_stored]
  by_cases hf : draft.kind.family = f
  · simp [hf, List.range_succ]
  · simp [hf]

theorem children_lt_add {node : Handle} {s : Shape Symbol}
    (hs : (a.add span draft).2.shape? node = some s) {child : Handle}
    (hchild : child ∈ s.children) :
    child = .absent ∨ child.toNat < node.toNat := by
  obtain ⟨n, hn, -⟩ := Option.bind_eq_some_iff.1 hs
  obtain ⟨hnode, hplace⟩ := (header?_eq_some_iff _ _ _).1 hn
  rw [headers_add, Array.getElem?_push] at hplace
  split at hplace
  · next hnew =>
    -- The node is the new one, whose children were checked against the size.
    replace hnew : node.toNat = a.size := hnew
    have hsize : a.size < UInt32.size - 1 := hnew ▸ Handle.ne_absent_iff.1 hnode
    have hself := shape?_add_self ha span draft hsize
    rw [show Handle.ofNat a.size = node by rw [← hnew, Handle.ofNat_toNat], hs] at hself
    obtain rfl := Option.some.inj hself
    rw [children_stored, List.mem_map] at hchild
    obtain ⟨c, -, rfl⟩ := hchild
    rw [hnew]
    exact a.eq_absent_or_toNat_keep_lt c
  · next hold =>
    -- The node was there, with the same shape.
    obtain ⟨s', hs'⟩ := ha.exists_shape? ((header?_eq_some_iff _ _ _).2 ⟨hnode, hplace⟩)
    have hsame := (extends_add a span draft).shape? hs'
    rw [hs] at hsame
    obtain rfl := Option.some.inj hsame
    exact ha.children_lt hs' hchild

theorem symbol_lt_add {symbol : Symbol}
    (h : symbol ∈ (a.add span draft).2.pools.identifiers) :
    symbol.toNat < (a.add span draft).2.symbols.size := by
  rw [pools_add, Pools.mem_identifiers_insert] at h
  rcases h with hold | hnew
  · have hle : a.symbols.size ≤ (a.add span draft).2.symbols.size := by
      simpa [SymbolTable.size] using (names_isPrefix_add a span draft).length_le
    exact Nat.lt_of_lt_of_le (ha.symbol_lt hold) hle
  · cases draft with
    | identifier name =>
      obtain rfl : (a.symbols.intern name).1 = symbol := Shape.identifier.inj hnew
      exact SymbolTable.toNat_intern_lt a.symbols name
    | _ => cases hnew

theorem size_symbols_add_le :
    (a.add span draft).2.symbols.size ≤ (a.add span draft).2.pools.count .identifiers + 21 := by
  have hle := ha.size_symbols_le
  rw [pools_add, Pools.count_insert, kind_stored, symbols_add]
  cases draft with
  | identifier name =>
    have hintern := SymbolTable.size_intern_le a.symbols name
    simp only [Shape.kind, Kind.family, if_pos]
    exact Nat.le_trans hintern (by omega)
  | _ => exact Nat.le_trans hle (by omega)

/-- Every addition keeps the invariant, whatever its draft. -/
theorem Sound.add : (a.add span draft).2.Sound where
  size_parents := by
    rw [parents_add, size_foldl_adopt, size_add, Array.size_push, ha.size_parents]
  slots_eq := slots_add_eq ha span draft
  children_lt := children_lt_add ha span draft
  symbol_lt := symbol_lt_add ha span draft
  size_symbols_le := size_symbols_add_le ha span draft

end Addition

theorem Builds.sound {a b : Arena} (h : a.Builds b) (ha : a.Sound) : b.Sound :=
  h.preserves (fun _ span draft hc ↦ hc.add span draft) ha

end BoundNames.Arena

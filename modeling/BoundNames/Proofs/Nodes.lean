import BoundNames.Proofs.Reachable
import Mathlib.Data.List.Forall2

/-!
# The nodes of an arena

`node?` is all that can be read of a node: its span, and its draft with the name of an identifier as
a text. Symbols, slots and pools do not show in it. In a sound arena a node stays what it is while
the arena grows (`Extends.node?`), and a new node is its draft with the children that were kept
(`node?_add_self`).

The tree under a handle is read off the nodes alone (`tree?_succ`). A node with the draft of a tree
unfolds to the tree if its children unfold to those of the tree (`Tree.tree?_draft`), and what
unfolds from a node has its shape (`unfolds_of_tree?`).
-/

set_option autoImplicit false
set_option relaxedAutoImplicit false

namespace BoundNames

namespace Shape

variable {Name Other : Type}

/-- Replaces the name of an identifier and keeps all else. -/
def mapName (f : Name → Other) : Shape Name → Shape Other
  | identifier name => identifier (f name)
  | literal raw => literal raw
  | arrayPattern elements => arrayPattern elements
  | objectPattern entries => objectPattern entries
  | property data => property data
  | rest argument => rest argument
  | assignment data => assignment data
  | importing data => importing data
  | specifier form data => specifier form data
  | foreign typeName => foreign typeName

theorem children_mapName (f : Name → Other) (s : Shape Name) :
    (s.mapName f).children = s.children := by
  cases s <;> rfl

end Shape

namespace Arena

/-- What a node says: its span, and its draft with the name of an identifier as a text. -/
def node? (a : Arena) (node : Handle) : Option (Span × Draft) :=
  (a.header? node).bind fun n ↦
    (a.pools.shape? n).map fun s ↦ (n.span, s.mapName a.symbols.name)

theorem node?_eq_some_iff {a : Arena} {node : Handle} {span : Span} {draft : Draft} :
    a.node? node = some (span, draft) ↔
      ∃ n s, a.header? node = some n ∧ a.shape? node = some s ∧ n.span = span ∧
        s.mapName a.symbols.name = draft := by
  cases hn : a.header? node with
  | none => simp [node?, hn]
  | some n => cases hs : a.pools.shape? n <;> simp [node?, shape?, hn, hs]

theorem ne_absent_of_node? {a : Arena} {node : Handle} {x : Span × Draft}
    (h : a.node? node = some x) : node ≠ .absent := by
  obtain ⟨n, s, hn, -⟩ := node?_eq_some_iff.1 h
  exact ((header?_eq_some_iff _ _ _).1 hn).1

/-- The symbol of an identifier stands in the pool of identifiers. -/
theorem mem_identifiers_of_shape? {a : Arena} {node : Handle} {symbol : Symbol}
    (h : a.shape? node = some (.identifier symbol)) : symbol ∈ a.pools.identifiers := by
  obtain ⟨n, -, hs⟩ := Option.bind_eq_some_iff.1 h
  have hkind := Pools.kind_of_shape? hs
  rw [Pools.shape?_eq_payload?, ← hkind] at hs
  split at hs
  · obtain ⟨_, hplace, hsymbol⟩ := Option.map_eq_some_iff.1 hs
    obtain rfl := Shape.identifier.inj hsymbol
    exact Array.mem_of_getElem? hplace
  · cases hs

/-- A node of a sound arena stays what it is while the arena grows. -/
theorem Extends.node? {a b : Arena} (h : a.Extends b) (ha : a.Sound) {node : Handle}
    {x : Span × Draft} (hx : a.node? node = some x) : b.node? node = some x := by
  obtain ⟨n, s, hn, hs, hspan, hdraft⟩ := node?_eq_some_iff.1 hx
  refine node?_eq_some_iff.2 ⟨n, s, h.header? hn, h.shape? hs, hspan, ?_⟩
  rw [← hdraft]
  cases s with
  | identifier symbol =>
    rw [Shape.mapName, Shape.mapName, h.name (ha.symbol_lt (mem_identifiers_of_shape? hs))]
  | _ => rfl

/-- Below the limit a new node says what its draft says, with the children that were kept. -/
theorem node?_add_self {a : Arena} (ha : a.Sound) (span : Span) (draft : Draft)
    (hsize : a.size < nodeLimit) :
    (a.add span draft).2.node? (.ofNat a.size) = some (span, draft.mapChildren a.keep) := by
  rw [nodeLimit] at hsize
  have hword : a.size < UInt32.size - 1 := by omega
  refine node?_eq_some_iff.2
    ⟨_, _, header?_add_self span draft hword, shape?_add_self ha span draft hword, rfl, ?_⟩
  cases draft with
  | identifier name =>
    have hintern := SymbolTable.size_intern_le a.symbols name
    have hsymbols := ha.size_symbols_le
    have hcount := ha.count_le_size .identifiers
    exact congrArg Shape.identifier (SymbolTable.name_intern (by omega))
  | _ => rfl

end Arena

/-! ### Trees from nodes -/

/-- The tree of a draft, if each of its children has one. -/
def Draft.tree? (draft : Draft) (span : Span) (child : Handle → Option (Option Tree)) :
    Option Tree :=
  match draft with
  | .identifier name => some (.identifier span name)
  | .literal raw => some (.literal span raw)
  | .arrayPattern elements => do return .arrayPattern span (← elements.mapM child)
  | .objectPattern entries => do return .objectPattern span (← entries.mapM child)
  | .property data => do
    return .property span (← child data.key) (← child data.value) data.computed data.shorthand
  | .rest argument => do return .rest span (← child argument)
  | .assignment data => do return .assignment span (← child data.left) (← child data.right)
  | .importing data => do
    return .importing span (← data.specifiers.mapM child) (← child data.source)
  | .specifier form data => do
    return .specifier span form (← child data.imported) (← child data.localName)
  | .foreign typeName => some (.foreign span typeName)

theorem mapM_eq_some_iff {α β : Type} {f : α → Option β} {l : List α} {r : List β} :
    l.mapM f = some r ↔ l.map f = r.map some := by
  induction l generalizing r with
  | nil => cases r <;> simp
  | cons x others ih =>
    cases r with
    | nil => simp [Option.bind_eq_some_iff]
    | cons y r => simp [Option.bind_eq_some_iff, ih]

theorem forall₂_of_mapM_eq_some {α β : Type} {f : α → Option β} {l : List α} {r : List β}
    (h : l.mapM f = some r) : List.Forall₂ (fun x y ↦ f x = some y) l r := by
  rw [mapM_eq_some_iff, ← List.forall₂_eq_eq_eq, List.forall₂_map_left_iff,
    List.forall₂_map_right_iff] at h
  exact h

theorem eq_singleton_of_map_eq {α β : Type} {f : α → β} {l : List α} {x : β} (h : l.map f = [x]) :
    ∃ a, l = [a] ∧ f a = x := by
  simpa [List.map_eq_cons_iff] using h

theorem eq_pair_of_map_eq {α β : Type} {f : α → β} {l : List α} {x y : β} (h : l.map f = [x, y]) :
    ∃ a b, l = [a, b] ∧ f a = x ∧ f b = y := by
  obtain ⟨a, others, rfl, ha, hothers⟩ := List.map_eq_cons_iff.1 h
  obtain ⟨b, rfl, hb⟩ := eq_singleton_of_map_eq hothers
  exact ⟨a, b, rfl, ha, hb⟩

/-- The draft of a tree has the tree again if its handles have the tree's children. -/
theorem Tree.tree?_draft {t : Tree} {handles : List Handle}
    {child : Handle → Option (Option Tree)} (h : handles.map child = t.children.map some) :
    (t.draft handles).tree? t.span child = some t := by
  cases t with
  | identifier span name => rfl
  | literal span raw => rfl
  | arrayPattern span elements =>
    simp [draft, Draft.tree?, mapM_eq_some_iff.2 h, Tree.span, children]
  | objectPattern span entries =>
    simp [draft, Draft.tree?, mapM_eq_some_iff.2 h, Tree.span, children]
  | property span key value computed shorthand =>
    obtain ⟨x, y, rfl, hx, hy⟩ := eq_pair_of_map_eq h
    simp [draft, Draft.tree?, hx, hy, Tree.span]
  | rest span argument =>
    obtain ⟨x, rfl, hx⟩ := eq_singleton_of_map_eq h
    simp [draft, Draft.tree?, hx, Tree.span]
  | assignment span left right =>
    obtain ⟨x, y, rfl, hx, hy⟩ := eq_pair_of_map_eq h
    simp [draft, Draft.tree?, hx, hy, Tree.span]
  | importing span specifiers source =>
    rw [children, List.map_append, List.map_eq_append_iff] at h
    obtain ⟨first, last, rfl, hfirst, hlast⟩ := h
    obtain ⟨x, rfl, hx⟩ := eq_singleton_of_map_eq hlast
    have hlength : first.length = specifiers.length := by
      simpa using congrArg List.length hfirst
    simp [draft, Draft.tree?, ← hlength, mapM_eq_some_iff.2 hfirst, hx, Tree.span]
  | specifier span form imported localName =>
    obtain ⟨x, y, rfl, hx, hy⟩ := eq_pair_of_map_eq h
    simp [draft, Draft.tree?, hx, hy, Tree.span]
  | foreign span typeName => rfl

theorem Arena.tree?_succ (a : Arena) (budget : Nat) (node : Handle) :
    a.tree? (budget + 1) node =
      (a.node? node).bind fun x ↦ Draft.tree? x.2 x.1 (child? (a.tree? budget)) := by
  cases hn : a.header? node with
  | none => simp [tree?, node?, hn]
  | some n =>
    cases hs : a.pools.shape? n with
    | none => simp [tree?, node?, shape?, hn, hs]
    | some s => cases s <;> simp [tree?, node?, shape?, hn, hs, Draft.tree?, Shape.mapName]

/-- A shape and a span are those of the root of a tree, and the children of the tree are below those
of the shape. -/
inductive Shape.Unfolds {Name : Type} (text : Name → String) (below : Handle → Option Tree → Prop)
    (span : Span) : Shape Name → Tree → Prop where
  | identifier {name : Name} :
    Unfolds text below span (.identifier name) (.identifier span (text name))
  | literal {raw : String} : Unfolds text below span (.literal raw) (.literal span raw)
  | arrayPattern {elements : List Handle} {items : List (Option Tree)}
    (hitems : List.Forall₂ below elements items) :
    Unfolds text below span (.arrayPattern elements) (.arrayPattern span items)
  | objectPattern {entries : List Handle} {items : List (Option Tree)}
    (hitems : List.Forall₂ below entries items) :
    Unfolds text below span (.objectPattern entries) (.objectPattern span items)
  | property {data : Property} {key value : Option Tree} (hkey : below data.key key)
    (hvalue : below data.value value) :
    Unfolds text below span (.property data)
      (.property span key value data.computed data.shorthand)
  | rest {handle : Handle} {argument : Option Tree} (hargument : below handle argument) :
    Unfolds text below span (.rest handle) (.rest span argument)
  | assignment {data : Assignment} {left right : Option Tree} (hleft : below data.left left)
    (hright : below data.right right) :
    Unfolds text below span (.assignment data) (.assignment span left right)
  | importing {data : Import} {items : List (Option Tree)} {source : Option Tree}
    (hitems : List.Forall₂ below data.specifiers items) (hsource : below data.source source) :
    Unfolds text below span (.importing data) (.importing span items source)
  | specifier {form : SpecifierForm} {data : Specifier} {imported localName : Option Tree}
    (himported : below data.imported imported) (hlocal : below data.localName localName) :
    Unfolds text below span (.specifier form data) (.specifier span form imported localName)
  | foreign {typeName : String} :
    Unfolds text below span (.foreign typeName) (.foreign span typeName)

/-- What unfolds from a node is a tree of its shape and its span. -/
theorem Arena.unfolds_of_tree? {a : Arena} {budget : Nat} {node : Handle} {t : Tree}
    (h : a.tree? (budget + 1) node = some t) :
    ∃ s span, a.shape? node = some s ∧ a.span? node = some span ∧
      s.Unfolds a.symbols.name (fun child c ↦ child? (a.tree? budget) child = some c) span t := by
  rw [tree?_succ] at h
  obtain ⟨⟨span, draft⟩, hx, h⟩ := Option.bind_eq_some_iff.1 h
  obtain ⟨n, s, hn, hs, rfl, rfl⟩ := node?_eq_some_iff.1 hx
  refine ⟨s, n.span, hs, by rw [span?, hn, Option.map_some], ?_⟩
  cases s with
  | identifier symbol =>
    obtain rfl := Option.some.inj h
    exact .identifier
  | literal raw =>
    obtain rfl := Option.some.inj h
    exact .literal
  | arrayPattern elements =>
    obtain ⟨items, hitems, ht⟩ := Option.bind_eq_some_iff.1 h
    obtain rfl := Option.some.inj ht
    exact .arrayPattern (forall₂_of_mapM_eq_some hitems)
  | objectPattern entries =>
    obtain ⟨items, hitems, ht⟩ := Option.bind_eq_some_iff.1 h
    obtain rfl := Option.some.inj ht
    exact .objectPattern (forall₂_of_mapM_eq_some hitems)
  | property data =>
    obtain ⟨key, hkey, h⟩ := Option.bind_eq_some_iff.1 h
    obtain ⟨value, hvalue, ht⟩ := Option.bind_eq_some_iff.1 h
    obtain rfl := Option.some.inj ht
    exact .property hkey hvalue
  | rest handle =>
    obtain ⟨argument, hargument, ht⟩ := Option.bind_eq_some_iff.1 h
    obtain rfl := Option.some.inj ht
    exact .rest hargument
  | assignment data =>
    obtain ⟨left, hleft, h⟩ := Option.bind_eq_some_iff.1 h
    obtain ⟨right, hright, ht⟩ := Option.bind_eq_some_iff.1 h
    obtain rfl := Option.some.inj ht
    exact .assignment hleft hright
  | importing data =>
    obtain ⟨items, hitems, h⟩ := Option.bind_eq_some_iff.1 h
    obtain ⟨source, hsource, ht⟩ := Option.bind_eq_some_iff.1 h
    obtain rfl := Option.some.inj ht
    exact .importing (forall₂_of_mapM_eq_some hitems) hsource
  | specifier form data =>
    obtain ⟨imported, himported, h⟩ := Option.bind_eq_some_iff.1 h
    obtain ⟨localName, hlocal, ht⟩ := Option.bind_eq_some_iff.1 h
    obtain rfl := Option.some.inj ht
    exact .specifier himported hlocal
  | foreign typeName =>
    obtain rfl := Option.some.inj h
    exact .foreign

end BoundNames

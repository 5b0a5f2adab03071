import BoundNames.Proofs.Names
import BoundNames.Proofs.Parents

/-!
# One addition

All that an addition does to a reachable arena below the limit, and that it does nothing else. The
handle of the new node is the number of nodes before it. What is stored of the draft is the draft
itself but for the children that do not precede the node (`Shape.Stores`): these are dropped
(`Handle.Kept`), and each of them is reported. The nodes that were there keep their headers, shapes
and names, one pool becomes longer by one entry, a name may be added to the table, and the children
that are kept have the new node as their parent (`Session.Adds`).

Patterns and specifiers are also added by their kind. A kind that goes with the data adds its node
as any draft does, and all other kinds change nothing (`Edit.apply_adds`).
-/

set_option autoImplicit false
set_option relaxedAutoImplicit false

namespace BoundNames

/-! ### What is stored -/

/-- What becomes of a child of a node that is added to so many nodes. -/
inductive Handle.Kept (size : Nat) : Handle → Handle → Prop where
  /-- A hole stays a hole. -/
  | absent : Kept size .absent .absent
  /-- A child that precedes the node is kept. -/
  | precedes {child : Handle} (hlt : child.toNat < size) : Kept size child child
  /-- Any other child is dropped. -/
  | dropped {child : Handle} (hpresent : child ≠ .absent) (hle : size ≤ child.toNat) :
    Kept size child .absent

/-- What is stored for a draft: each child becomes what `kept` says, an identifier has a symbol for
its name, and all else is the same. -/
inductive Shape.Stores (kept : Handle → Handle → Prop) (text : Symbol → String) :
    Draft → Shape Symbol → Prop where
  | identifier {symbol : Symbol} : Stores kept text (.identifier (text symbol)) (.identifier symbol)
  | literal {raw : String} : Stores kept text (.literal raw) (.literal raw)
  | arrayPattern {elements stored : List Handle} (helements : List.Forall₂ kept elements stored) :
    Stores kept text (.arrayPattern elements) (.arrayPattern stored)
  | objectPattern {entries stored : List Handle} (hentries : List.Forall₂ kept entries stored) :
    Stores kept text (.objectPattern entries) (.objectPattern stored)
  | property {key value key' value' : Handle} {computed shorthand : Bool} (hkey : kept key key')
    (hvalue : kept value value') :
    Stores kept text (.property ⟨key, value, computed, shorthand⟩)
      (.property ⟨key', value', computed, shorthand⟩)
  | rest {argument argument' : Handle} (hargument : kept argument argument') :
    Stores kept text (.rest argument) (.rest argument')
  | assignment {left right left' right' : Handle} (hleft : kept left left')
    (hright : kept right right') :
    Stores kept text (.assignment ⟨left, right⟩) (.assignment ⟨left', right'⟩)
  | importing {specifiers stored : List Handle} {source source' : Handle}
    (hspecifiers : List.Forall₂ kept specifiers stored) (hsource : kept source source') :
    Stores kept text (.importing ⟨specifiers, source⟩) (.importing ⟨stored, source'⟩)
  | specifier {form : SpecifierForm} {imported localName imported' localName' : Handle}
    (himported : kept imported imported') (hlocal : kept localName localName') :
    Stores kept text (.specifier form ⟨imported, localName⟩)
      (.specifier form ⟨imported', localName'⟩)
  | foreign {typeName : String} : Stores kept text (.foreign typeName) (.foreign typeName)

/-- A shape that reads as a draft whose children are replaced stores the draft. -/
theorem Shape.stores_of_mapName_eq {kept : Handle → Handle → Prop} {f : Handle → Handle}
    (hf : ∀ child, kept child (f child)) {text : Symbol → String} {draft : Draft}
    {s : Shape Symbol} (h : s.mapName text = draft.mapChildren f) : Stores kept text draft s := by
  have hlist : ∀ l : List Handle, List.Forall₂ kept l (l.map f) := by
    intro l
    rw [List.forall₂_map_right_iff, List.forall₂_same]
    exact fun child _ ↦ hf child
  cases draft with
  | identifier name =>
    cases s <;> cases h
    exact .identifier
  | literal raw =>
    cases s <;> cases h
    exact .literal
  | arrayPattern elements =>
    cases s <;> cases h
    exact .arrayPattern (hlist elements)
  | objectPattern entries =>
    cases s <;> cases h
    exact .objectPattern (hlist entries)
  | property data =>
    cases s <;> cases h
    exact .property (hf data.key) (hf data.value)
  | rest argument =>
    cases s <;> cases h
    exact .rest (hf argument)
  | assignment data =>
    cases s <;> cases h
    exact .assignment (hf data.left) (hf data.right)
  | importing data =>
    cases s <;> cases h
    exact .importing (hlist data.specifiers) (hf data.source)
  | specifier form data =>
    cases s <;> cases h
    exact .specifier (hf data.imported) (hf data.localName)
  | foreign typeName =>
    cases s <;> cases h
    exact .foreign

namespace Arena

variable {a : Arena}

theorem kept_keep (a : Arena) (child : Handle) : child.Kept a.size (a.keep child) := by
  unfold keep
  split
  · next hadmits =>
    rw [admits, Bool.or_eq_true, Handle.isAbsent_iff, decide_eq_true_eq] at hadmits
    rcases hadmits with rfl | hlt
    · exact .absent
    · exact .precedes hlt
  · next hrefuses =>
    rw [admits, Bool.or_eq_true, Handle.isAbsent_iff, decide_eq_true_eq, not_or] at hrefuses
    exact .dropped hrefuses.1 (Nat.le_of_not_lt hrefuses.2)

theorem refused_eq_filter (a : Arena) (draft : Draft) :
    a.refused draft =
      draft.children.filter fun child ↦ child ≠ .absent ∧ a.size ≤ child.toNat := by
  refine List.filter_congr fun child _ ↦ ?_
  by_cases habsent : child = .absent
  · simp [admits, Handle.isAbsent, habsent]
  · by_cases hlt : child.toNat < a.size
    · simp [admits, hlt, Nat.not_le_of_lt hlt]
    · simp [admits, Handle.isAbsent, habsent, hlt, Nat.le_of_not_lt hlt]

/-- The children that a node is stored with are those of its draft that precede it. -/
theorem mem_children_stored_iff {draft : Draft} {child : Handle} (habsent : child ≠ .absent) :
    child ∈ (a.stored draft).children ↔ child ∈ draft.children ∧ child.toNat < a.size := by
  rw [children_stored, List.mem_map]
  constructor
  · rintro ⟨c, hc, rfl⟩
    have hkept := a.kept_keep c
    generalize a.keep c = k at habsent hkept
    cases hkept with
    | absent => exact absurd rfl habsent
    | precedes hlt => exact ⟨hc, hlt⟩
    | dropped _ _ => exact absurd rfl habsent
  · rintro ⟨hmem, hlt⟩
    exact ⟨child, hmem, keep_of_admits (by simp [admits, hlt])⟩

/-- A node of a sound arena has the same header, shape and name after an addition. -/
theorem reads_add (ha : a.Sound) (span : Span) (draft : Draft) {node : Handle}
    (hnode : (a.header? node).isSome) :
    (a.add span draft).2.header? node = a.header? node ∧
      (a.add span draft).2.shape? node = a.shape? node ∧
      (a.add span draft).2.name? node = a.name? node := by
  have hextends := extends_add a span draft
  obtain ⟨n, hn⟩ := Option.isSome_iff_exists.1 hnode
  obtain ⟨s, hs⟩ := ha.exists_shape? hn
  obtain ⟨⟨span', draft'⟩, hx⟩ := ha.exists_node? hn
  refine ⟨?_, ?_, ?_⟩
  · rw [hn, hextends.header? hn]
  · rw [hs, hextends.shape? hs]
  · rw [(name?_of_node? hx).1, (name?_of_node? (hextends.node? ha hx)).1]

theorem symbols_add_of_ne (a : Arena) (span : Span) {draft : Draft}
    (hdraft : ∀ name, draft ≠ .identifier name) : (a.add span draft).2.symbols = a.symbols := by
  rw [symbols_add]
  cases draft with
  | identifier name => exact absurd rfl (hdraft name)
  | _ => rfl

end Arena

/-! ### Additions in a session -/

namespace Session

open Arena (nodeLimit nodeLimit_lt)

/-- The session `t` comes from `s` by the addition of a node with the draft and the span, and
`node` is the handle of the node. -/
structure Adds (s : Session) (span : Span) (draft : Draft) (node : Handle) (t : Session) :
    Prop where
  /-- The handle is the number of nodes that were there. -/
  toNat_node : node.toNat = s.arena.size
  /-- There is one node more. -/
  size : t.arena.size = s.arena.size + 1
  /-- The node has the kind of the draft and the span. -/
  header : ∃ n, t.arena.header? node = some n ∧ n.kind = draft.kind ∧ n.span = span
  /-- The node has the shape of the draft, without the children that do not precede it. -/
  shape : ∃ stored, t.arena.shape? node = some stored ∧
    Shape.Stores (Handle.Kept s.arena.size) t.arena.symbols.name draft stored
  /-- Each child that is dropped is reported, in the order in which children are checked. -/
  events : t.events = s.events ++
    ((draft.children.filter fun child ↦ child ≠ .absent ∧ s.arena.size ≤ child.toNat).map
      fun child ↦ Event.refusedChild child s.arena.size).toArray
  /-- The nodes that were there are what they were. -/
  others (other : Handle) (hother : (s.arena.header? other).isSome) :
    t.arena.header? other = s.arena.header? other ∧
      t.arena.shape? other = s.arena.shape? other ∧ t.arena.name? other = s.arena.name? other
  /-- The pool of the kind has one entry more, and no other pool has. -/
  count (f : Family) : t.arena.pools.count f =
    s.arena.pools.count f + if draft.kind.family = f then 1 else 0
  /-- The entries that were there stay in their places. -/
  payloads (k : Kind) (i : Nat) (hi : i < s.arena.pools.count k.family) :
    t.arena.pools.payload? k i = s.arena.pools.payload? k i
  /-- Only an identifier changes the table of names. -/
  symbols (hdraft : ∀ name, draft ≠ .identifier name) : t.arena.symbols = s.arena.symbols
  /-- An identifier adds its name to the table, unless it is there. -/
  names (name : String) (hdraft : draft = .identifier name) : t.arena.symbols.names =
    if name ∈ s.arena.symbols.names then s.arena.symbols.names
    else s.arena.symbols.names.push name
  /-- The children that are kept have the node as their parent, and no other parent changes. -/
  parent (child : Handle) : t.arena.parent child =
    if child ∈ draft.children ∧ child ≠ .absent ∧ child.toNat < s.arena.size then node
    else s.arena.parent child

theorem adds_add {s : Session} (hs : s.arena.Sound) (hsize : s.arena.size < nodeLimit)
    (span : Span) (draft : Draft) :
    s.Adds span draft (add span draft s).1 (add span draft s).2 := by
  have hlimit := nodeLimit_lt
  have hword : s.arena.size < UInt32.size - 1 := by
    rw [nodeLimit] at hsize
    omega
  obtain ⟨n, stored, hn, hstored, hspan, hdraft⟩ :=
    Arena.node?_eq_some_iff.1 (Arena.node?_add_self hs span draft hsize)
  have hkind : n.kind = draft.kind := by
    rw [Arena.header?_add_self span draft hword] at hn
    obtain rfl := Option.some.inj hn
    rfl
  constructor
  case toNat_node => exact Handle.toNat_ofNat_of_lt (by omega)
  case size => exact Arena.size_add _ _ _
  case header => exact ⟨n, hn, hkind, hspan⟩
  case shape => exact ⟨stored, hstored, Shape.stores_of_mapName_eq s.arena.kept_keep hdraft⟩
  case events => rw [← Arena.refused_eq_filter]; rfl
  case others => exact fun other hother ↦ Arena.reads_add hs span draft hother
  case count =>
    intro f
    rw [← s.arena.kind_stored draft]
    exact Pools.count_insert _ _ f
  case payloads => exact (Arena.extends_add s.arena span draft).payloads
  case symbols => exact fun hdraft ↦ Arena.symbols_add_of_ne _ span hdraft
  case names =>
    rintro name rfl
    exact SymbolTable.names_intern _ name
  case parent =>
    intro child
    by_cases habsent : child = .absent
    · rw [if_neg fun h ↦ h.2.1 habsent, habsent]
      rfl
    · refine (Arena.parent_add hs span draft habsent).trans ?_
      simp only [Arena.mem_children_stored_iff habsent, habsent, ne_eq, not_false_eq_true, true_and]
      rfl

end Session

namespace Edit

/-- The edit adds a node with the draft and the span to the session. -/
def Adds (e : Edit) (s : Session) (span : Span) (draft : Draft) : Prop :=
  ∃ node t, e.apply s = (.node node, t) ∧ s.Adds span draft node t

/-- In a reachable arena below the limit every draft is added as `Session.Adds` says, whatever its
children. Array and object patterns and the three forms of specifier are added so by their kinds,
and a kind of neither sort is refused and changes nothing. -/
theorem apply_adds {s : Session} (hs : s.arena.Reachable)
    (hsize : s.arena.size < Arena.nodeLimit) :
    (∀ span draft, (Edit.add span draft).Adds s span draft) ∧
      (∀ span elements,
        (Edit.pattern .arrayPattern span elements).Adds s span (.arrayPattern elements) ∧
        (Edit.pattern .objectPattern span elements).Adds s span (.objectPattern elements)) ∧
      (∀ form span data,
        (Edit.specifier form.kind span data).Adds s span (.specifier form data)) ∧
      (∀ kind span elements, kind.isBindingPattern = false →
        (Edit.pattern kind span elements).apply s = (.refused .notPattern, s)) ∧
      ∀ kind span data, kind.isImportSpecifier = false →
        (Edit.specifier kind span data).apply s = (.refused .notSpecifier, s) := by
  have hadds := fun span draft ↦ Session.adds_add hs.sound hsize span draft
  refine ⟨fun span draft ↦ ?_, fun span elements ↦ ⟨?_, ?_⟩, fun form span data ↦ ?_,
    fun kind span elements hkind ↦ ?_, fun kind span data hkind ↦ ?_⟩
  · exact ⟨_, _, rfl, hadds span draft⟩
  · exact ⟨_, _, rfl, hadds span _⟩
  · exact ⟨_, _, rfl, hadds span _⟩
  · cases form <;> exact ⟨_, _, rfl, hadds span _⟩
  · rw [apply, (Draft.patternOf_eq_error_iff kind elements).2 hkind]
    rfl
  · rw [apply, (Draft.specifierOf_eq_error_iff kind data).2 hkind]
    rfl

/-- An arena of two identifiers. -/
def pairSession : Session where
  arena := arenaAfter .prepared [
    .add .nowhere (.identifier "a"),
    .add .nowhere (.identifier "default")]

/-- An import of the first identifier and of a hole, with handles of itself and of later nodes. -/
def forwardImport : Edit :=
  .add ⟨3, 9⟩ (.importing ⟨[.ofNat 0, .absent, .ofNat 7, .ofNat 2], .ofNat 5⟩)

theorem apply_forwardImport :
    forwardImport.Adds pairSession ⟨3, 9⟩
        (.importing ⟨[.ofNat 0, .absent, .ofNat 7, .ofNat 2], .ofNat 5⟩) ∧
      (forwardImport.apply pairSession).2.events =
        #[.refusedChild (.ofNat 7) 2, .refusedChild (.ofNat 2) 2, .refusedChild (.ofNat 5) 2] ∧
      (forwardImport.apply pairSession).2.arena.shape? (.ofNat 2) =
        some (.importing ⟨[.ofNat 0, .absent, .absent, .absent], .absent⟩) ∧
      (Edit.pattern .importSpecifier .nowhere [.ofNat 0]).apply pairSession =
        (.refused .notPattern, pairSession) := by
  have hreachable : pairSession.arena.Reachable := ⟨.prepared, _, .inr rfl, rfl⟩
  obtain ⟨hadd, -, -, hrefused, -⟩ := apply_adds hreachable (by decide +kernel)
  exact ⟨hadd _ _, by decide +kernel, by decide +kernel, hrefused _ _ _ rfl⟩

end Edit

end BoundNames

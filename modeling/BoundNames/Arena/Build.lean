import BoundNames.Arena.Access

/-!
# Building an arena

Nodes are added children first. A new node keeps a child that precedes it; a child that does not is
taken for absent, so no run of additions makes a cycle. Adding a node makes it the parent of the
children it keeps, also of those that had another parent.

A patch changes an arena without any check and enters no parents. It can leave an arena with missing
data, with children that follow their parents, and with cycles.
-/

set_option autoImplicit false
set_option relaxedAutoImplicit false

namespace BoundNames

/-- The symbol for the name of an identifier, and the table that has it. -/
def Draft.intern (draft : Draft) (symbols : SymbolTable) : Shape Symbol × SymbolTable :=
  match draft with
  | .identifier name =>
    let (symbol, symbols) := symbols.intern name
    (.identifier symbol, symbols)
  | .literal raw => (.literal raw, symbols)
  | .arrayPattern elements => (.arrayPattern elements, symbols)
  | .objectPattern entries => (.objectPattern entries, symbols)
  | .property data => (.property data, symbols)
  | .rest argument => (.rest argument, symbols)
  | .assignment data => (.assignment data, symbols)
  | .importing data => (.importing data, symbols)
  | .specifier form data => (.specifier form data, symbols)
  | .foreign typeName => (.foreign typeName, symbols)

theorem Draft.kind_intern (draft : Draft) (symbols : SymbolTable) :
    (Draft.intern draft symbols).1.kind = draft.kind := by
  cases draft <;> rfl

theorem Draft.children_intern (draft : Draft) (symbols : SymbolTable) :
    (Draft.intern draft symbols).1.children = draft.children := by
  cases draft <;> rfl

/-- Adds the data of a shape to the end of its pool, and gives their slot with the high bits cut
off. -/
def Pools.insert (p : Pools) : Shape Symbol → UInt32 × Pools
  | .identifier symbol =>
    (.ofNat p.identifiers.size, { p with identifiers := p.identifiers.push symbol })
  | .literal raw => (.ofNat p.literals.size, { p with literals := p.literals.push raw })
  | .arrayPattern elements =>
    (.ofNat p.patterns.size, { p with patterns := p.patterns.push elements })
  | .objectPattern entries =>
    (.ofNat p.patterns.size, { p with patterns := p.patterns.push entries })
  | .property data => (.ofNat p.properties.size, { p with properties := p.properties.push data })
  | .rest argument => (.ofNat p.rests.size, { p with rests := p.rests.push argument })
  | .assignment data =>
    (.ofNat p.assignments.size, { p with assignments := p.assignments.push data })
  | .importing data => (.ofNat p.imports.size, { p with imports := p.imports.push data })
  | .specifier _ data => (.ofNat p.specifiers.size, { p with specifiers := p.specifiers.push data })
  | .foreign typeName => (.ofNat p.foreigns.size, { p with foreigns := p.foreigns.push typeName })

/-- The children whose parent is entered. The local name of a specifier that is its imported name as
well is passed over the second time. -/
def Shape.adopted {Name : Type} : Shape Name → List Handle
  | .specifier _ data =>
    if data.localName = data.imported then [data.imported] else [data.imported, data.localName]
  | shape => shape.children

namespace Arena

/-- Whether a node that is added now may have a child: it is absent or there already. -/
def admits (a : Arena) (child : Handle) : Bool :=
  child.isAbsent || child.toNat < a.size

/-- The child itself if it is admitted, and an absent one if not. -/
def keep (a : Arena) (child : Handle) : Handle :=
  if a.admits child then child else .absent

/-- The children of a draft that are not admitted, in the order in which they are checked. -/
def refused (a : Arena) (draft : Draft) : List Handle :=
  draft.children.filter fun child ↦ !a.admits child

/-- Enters the parent of one child. -/
def adopt (parent : Handle) (parents : Array Handle) (child : Handle) : Array Handle :=
  if child.isAbsent then parents else parents.setIfInBounds child.toNat parent

/-- Adds a node and gives its handle, the number of nodes before it with the high bits cut off. -/
def add (a : Arena) (span : Span) (draft : Draft) : Handle × Arena :=
  let (shape, symbols) := Draft.intern (draft.mapChildren a.keep) a.symbols
  let (slot, pools) := a.pools.insert shape
  let node := Handle.ofNat a.size
  let parents := shape.adopted.foldl (adopt node) (a.parents.push .absent)
  (node, ⟨a.headers.push ⟨draft.kind, span, slot⟩, parents, pools, symbols⟩)

theorem admits_keep (a : Arena) (child : Handle) : a.admits (a.keep child) = true := by
  unfold keep
  split
  · next h => exact h
  · rfl

theorem keep_of_admits {a : Arena} {child : Handle} (h : a.admits child = true) :
    a.keep child = child := by
  simp [keep, h]

/-- To enter a parent twice is to enter it once. -/
theorem adopt_adopt (parent : Handle) (parents : Array Handle) (child : Handle) :
    adopt parent (adopt parent parents child) child = adopt parent parents child := by
  unfold adopt
  split
  · rfl
  · exact Array.setIfInBounds_setIfInBounds parent

/-- Every child has its parent entered, also one that is passed over the second time. -/
theorem foldl_adopt_adopted {Name : Type} (parent : Handle) (parents : Array Handle)
    (shape : Shape Name) :
    shape.adopted.foldl (adopt parent) parents = shape.children.foldl (adopt parent) parents := by
  cases shape with
  | specifier form data =>
    simp only [Shape.adopted, Shape.children]
    split
    · next h => rw [h, List.foldl_cons, List.foldl_cons, List.foldl_cons, adopt_adopt]
    · rfl
  | _ => rfl

theorem fst_add (a : Arena) (span : Span) (draft : Draft) :
    (a.add span draft).1 = Handle.ofNat a.size := rfl

theorem size_add (a : Arena) (span : Span) (draft : Draft) :
    (a.add span draft).2.size = a.size + 1 := by
  simp [add, size]

/-- The arena without nodes and names. -/
def clear (_ : Arena) : Arena := {}

/-! ### Patches -/

/-- Adds a header as it stands, and an absent parent beside it if asked to. -/
def pushHeader (a : Arena) (n : Header) (withParent : Bool) : Arena :=
  { a with
    headers := a.headers.push n
    parents := if withParent then a.parents.push .absent else a.parents }

/-- Adds an entry to the pool of identifiers, with no node for it. -/
def pushSymbol (a : Arena) (s : Symbol) : Arena :=
  { a with pools.identifiers := a.pools.identifiers.push s }

/-- Replaces the data at a slot of the pool that a shape belongs to. -/
def overwrite (a : Arena) (slot : Nat) (shape : Shape Symbol) : Arena :=
  let p := a.pools
  { a with pools := match shape with
    | .identifier symbol => { p with identifiers := p.identifiers.setIfInBounds slot symbol }
    | .literal raw => { p with literals := p.literals.setIfInBounds slot raw }
    | .arrayPattern elements => { p with patterns := p.patterns.setIfInBounds slot elements }
    | .objectPattern entries => { p with patterns := p.patterns.setIfInBounds slot entries }
    | .property data => { p with properties := p.properties.setIfInBounds slot data }
    | .rest argument => { p with rests := p.rests.setIfInBounds slot argument }
    | .assignment data => { p with assignments := p.assignments.setIfInBounds slot data }
    | .importing data => { p with imports := p.imports.setIfInBounds slot data }
    | .specifier _ data => { p with specifiers := p.specifiers.setIfInBounds slot data }
    | .foreign typeName => { p with foreigns := p.foreigns.setIfInBounds slot typeName } }

end Arena

/-- A kind that does not go with the data it is given for. -/
inductive Misuse where
  | notPattern
  | notSpecifier
deriving DecidableEq

/-- What is reported of a kind that does not go with its data. -/
def Misuse.message : Misuse → String
  | notPattern => "assertion failed: kind.is_binding_pattern()"
  | notSpecifier => "assertion failed: kind.is_import_specifier()"

namespace Draft

/-- An array or object pattern, by its kind. -/
def patternOf (kind : Kind) (elements : List Handle) : Except Misuse Draft :=
  match kind with
  | .arrayPattern => .ok (.arrayPattern elements)
  | .objectPattern => .ok (.objectPattern elements)
  | _ => .error .notPattern

/-- A specifier of one of the three forms, by its kind. -/
def specifierOf (kind : Kind) (data : Specifier) : Except Misuse Draft :=
  match kind with
  | .importSpecifier => .ok (.specifier .named data)
  | .importDefaultSpecifier => .ok (.specifier .defaultExport data)
  | .importNamespaceSpecifier => .ok (.specifier .wholeModule data)
  | _ => .error .notSpecifier

theorem patternOf_eq_error_iff (kind : Kind) (elements : List Handle) :
    patternOf kind elements = .error .notPattern ↔ kind.isBindingPattern = false := by
  cases kind <;> simp [patternOf, Kind.isBindingPattern]

theorem specifierOf_eq_error_iff (kind : Kind) (data : Specifier) :
    specifierOf kind data = .error .notSpecifier ↔ kind.isImportSpecifier = false := by
  cases kind <;> simp [specifierOf, Kind.isImportSpecifier]

end Draft

end BoundNames

import BoundNames.Arena.Basic

/-!
# Reading an arena

A handle leads to a header, and a header to its data. For each pool there is a getter that answers
only for headers of its kinds, and `Pools.shape?` brings the nine together: it dispatches on the
kind and gives the shape of the node, or nothing if its data are missing.
-/

set_option autoImplicit false
set_option relaxedAutoImplicit false

namespace BoundNames

namespace Pools

/-- The entry of a pool that a header names, for a header whose kind belongs to the pool. -/
def fetch {α : Type} (pool : Array α) (belongs : Bool) (n : Header) : Option α :=
  if n.hasData && belongs then pool[n.slot.toNat]? else none

/-- The symbol of an identifier. -/
def identifier? (p : Pools) (n : Header) : Option Symbol :=
  fetch p.identifiers (n.kind = .identifier) n

/-- The text of a literal. -/
def literal? (p : Pools) (n : Header) : Option String :=
  fetch p.literals (n.kind = .literal) n

/-- The elements of an array pattern, or the entries of an object pattern. -/
def pattern? (p : Pools) (n : Header) : Option (List Handle) :=
  fetch p.patterns n.kind.isBindingPattern n

/-- The data of an object-pattern property. -/
def property? (p : Pools) (n : Header) : Option Property :=
  fetch p.properties (n.kind = .property) n

/-- The argument of a rest element. -/
def rest? (p : Pools) (n : Header) : Option Handle :=
  fetch p.rests (n.kind = .restElement) n

/-- The two sides of a binding with a default. -/
def assignment? (p : Pools) (n : Header) : Option Assignment :=
  fetch p.assignments (n.kind = .assignmentPattern) n

/-- The data of an import declaration. -/
def importing? (p : Pools) (n : Header) : Option Import :=
  fetch p.imports (n.kind = .importDeclaration) n

/-- The data of a specifier of any form. -/
def specifier? (p : Pools) (n : Header) : Option Specifier :=
  fetch p.specifiers n.kind.isImportSpecifier n

/-- The type of a foreign node. -/
def foreign? (p : Pools) (n : Header) : Option String :=
  fetch p.foreigns (n.kind = .unknown) n

/-- The shape of the node with a header, or nothing if its data are missing. -/
def shape? (p : Pools) (n : Header) : Option (Shape Symbol) :=
  match n.kind with
  | .identifier => (p.identifier? n).map .identifier
  | .literal => (p.literal? n).map .literal
  | .arrayPattern => (p.pattern? n).map .arrayPattern
  | .objectPattern => (p.pattern? n).map .objectPattern
  | .property => (p.property? n).map .property
  | .restElement => (p.rest? n).map .rest
  | .assignmentPattern => (p.assignment? n).map .assignment
  | .importDeclaration => (p.importing? n).map .importing
  | .importSpecifier => (p.specifier? n).map (.specifier .named)
  | .importDefaultSpecifier => (p.specifier? n).map (.specifier .defaultExport)
  | .importNamespaceSpecifier => (p.specifier? n).map (.specifier .wholeModule)
  | .unknown => (p.foreign? n).map .foreign

/-- The ESTree type of the node with a header: that of its kind, and its own for a foreign node. -/
def typeName (p : Pools) (n : Header) : String :=
  (p.foreign? n).getD n.kind.typeName

end Pools

namespace Arena

/-- The header of a node. -/
def header? (a : Arena) (h : Handle) : Option Header :=
  if h.isAbsent then none else a.headers[h.toNat]?

/-- The parent of a node, absent for a root and for a handle of no node. -/
def parent (a : Arena) (h : Handle) : Handle :=
  if h.isAbsent then .absent else (a.parents[h.toNat]?).getD .absent

/-- The span of a node. -/
def span? (a : Arena) (h : Handle) : Option Span :=
  (a.header? h).map Header.span

/-- The symbol of a node that is an identifier. -/
def symbol? (a : Arena) (h : Handle) : Option Symbol :=
  (a.header? h).bind a.pools.identifier?

/-- The name of a node that is an identifier. -/
def name? (a : Arena) (h : Handle) : Option String :=
  (a.symbol? h).map a.symbols.name

/-- The shape of a node whose data are there. -/
def shape? (a : Arena) (h : Handle) : Option (Shape Symbol) :=
  (a.header? h).bind a.pools.shape?

/-- The ESTree type of a node. -/
def typeName? (a : Arena) (h : Handle) : Option String :=
  (a.header? h).map a.pools.typeName

/-- A handle with a header is that of a node, so it is not absent and precedes the size. -/
theorem header?_eq_some_iff (a : Arena) (h : Handle) (n : Header) :
    a.header? h = some n ↔ h ≠ .absent ∧ a.headers[h.toNat]? = some n := by
  by_cases hh : h = .absent <;> simp [header?, Handle.isAbsent, hh]

end Arena

end BoundNames

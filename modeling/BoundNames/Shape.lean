import BoundNames.Handle
import BoundNames.Kind

/-!
# Shapes of nodes

What a node says beside its kind and its span. The children of a node are handles, and an identifier
refers to its name by a type that is left open: it is a text where a node is proposed and a symbol
where it is stored.
-/

set_option autoImplicit false
set_option relaxedAutoImplicit false

namespace BoundNames

/-- An entry `key: value` of an object pattern. -/
structure Property where
  key : Handle
  value : Handle
  computed : Bool
  shorthand : Bool
deriving DecidableEq

/-- A binding with a default, `left = right`. -/
structure Assignment where
  left : Handle
  right : Handle
deriving DecidableEq

/-- An import declaration: what it imports, and from where. -/
structure Import where
  specifiers : List Handle
  source : Handle
deriving DecidableEq

/-- A specifier of an import: the exported name, if it has one, and the name it is bound to. -/
structure Specifier where
  imported : Handle
  localName : Handle
deriving DecidableEq

/-- The three forms of specifier: of one export by its name, of the default export, and of the whole
module. -/
inductive SpecifierForm where
  | named
  | defaultExport
  | wholeModule
deriving DecidableEq

/-- The kind of a specifier of a form. -/
def SpecifierForm.kind : SpecifierForm → Kind
  | named => .importSpecifier
  | defaultExport => .importDefaultSpecifier
  | wholeModule => .importNamespaceSpecifier

/-- The shape of a node whose identifiers refer to their names by `Name`. A foreign node is one of
unknown kind, of which only the type is kept. -/
inductive Shape (Name : Type) where
  | identifier (name : Name)
  | literal (raw : String)
  | arrayPattern (elements : List Handle)
  | objectPattern (entries : List Handle)
  | property (data : Property)
  | rest (argument : Handle)
  | assignment (data : Assignment)
  | importing (data : Import)
  | specifier (form : SpecifierForm) (data : Specifier)
  | foreign (typeName : String)
deriving DecidableEq

namespace Shape

variable {Name : Type}

/-- The kind of a node of a shape. -/
def kind : Shape Name → Kind
  | identifier _ => .identifier
  | literal _ => .literal
  | arrayPattern _ => .arrayPattern
  | objectPattern _ => .objectPattern
  | property _ => .property
  | rest _ => .restElement
  | assignment _ => .assignmentPattern
  | importing _ => .importDeclaration
  | specifier form _ => form.kind
  | foreign _ => .unknown

/-- The children in the order in which they are checked, absent ones included. -/
def children : Shape Name → List Handle
  | identifier _ | literal _ | foreign _ => []
  | arrayPattern elements => elements
  | objectPattern entries => entries
  | property data => [data.key, data.value]
  | rest argument => [argument]
  | assignment data => [data.left, data.right]
  | importing data => data.specifiers ++ [data.source]
  | specifier _ data => [data.imported, data.localName]

/-- Replaces every child and keeps all else. -/
def mapChildren (f : Handle → Handle) : Shape Name → Shape Name
  | identifier name => identifier name
  | literal raw => literal raw
  | arrayPattern elements => arrayPattern (elements.map f)
  | objectPattern entries => objectPattern (entries.map f)
  | property data => property { data with key := f data.key, value := f data.value }
  | rest argument => rest (f argument)
  | assignment data => assignment ⟨f data.left, f data.right⟩
  | importing data => importing ⟨data.specifiers.map f, f data.source⟩
  | specifier form data => specifier form ⟨f data.imported, f data.localName⟩
  | foreign typeName => foreign typeName

theorem kind_mapChildren (f : Handle → Handle) (s : Shape Name) :
    (s.mapChildren f).kind = s.kind := by
  cases s <;> rfl

theorem children_mapChildren (f : Handle → Handle) (s : Shape Name) :
    (s.mapChildren f).children = s.children.map f := by
  cases s <;> simp [mapChildren, children]

end Shape

/-- A node as it is proposed: its identifiers are texts. -/
abbrev Draft := Shape String

end BoundNames

import BoundNames.Proofs.Extraction
import BoundNames.Proofs.Relocation

/-!
# Types of lowered values

A value has the values of its child fields as children (`Json.childValues`), and a node has the
nodes that its data mention. A path of positions leads from a value down to a value and from a node
down to a node. Where a value is lowered both go the same way: a path leads from the root to a node
exactly if it leads from the value to a value, and that node stands for that value
(`StandsFor.below?`). No node of the block is off these paths (`Laid.exists_below?`).

The node of a value has the type of the value, be it recognised or not, and the kind of that type
unless it is an identifier without a name (`StandsFor.exists_header`). So lowering loses no type
(`lower_keeps_types`).
-/

set_option autoImplicit false
set_option relaxedAutoImplicit false

namespace BoundNames

/-! ### Values by their types and children -/

namespace Json

/-- The type of a value in the place of a node. What has none has the empty type. -/
def typeName : Json → String
  | object fields => (textField? "type" fields).getD ""
  | _ => ""

/-- The kind of the node that a value becomes. An identifier without a name becomes a foreign node,
and so does what has no kind. -/
def nodeKind : Json → Kind
  | object fields =>
    if kind (object fields) = .identifier ∧ textField? "name" fields = none then .unknown
    else kind (object fields)
  | _ => .unknown

/-- The children of a value in the place of a node, in the order of those of the node. -/
def childValues : Json → List (Option Json)
  | object fields =>
    match kind (object fields) with
    | .arrayPattern => childList "elements" fields
    | .objectPattern => childList "properties" fields
    | .property => [childField "key" fields, childField "value" fields]
    | .restElement => [childField "argument" fields]
    | .assignmentPattern => [childField "left" fields, childField "right" fields]
    | .importDeclaration => childList "specifiers" fields ++ [childField "source" fields]
    | .importSpecifier => [childField "imported" fields, childField "local" fields]
    | .importDefaultSpecifier | .importNamespaceSpecifier => [none, childField "local" fields]
    | .identifier | .literal | .unknown => []
  | _ => []

/-- The child of a value at a position, if there is one. -/
def childAt? (v : Json) (i : Nat) : Option Json :=
  v.childValues[i]?.join

/-- The value that a path of positions among children leads to. -/
def below? (v : Json) : List Nat → Option Json
  | [] => some v
  | i :: path => (v.childAt? i).bind fun child ↦ child.below? path

theorem typeName_of_rootType {v : Json} {type : String} (h : Lowering.rootType v = .ok type) :
    v.typeName = type := by
  cases v with
  | object fields =>
    rw [Lowering.rootType] at h
    rw [typeName]
    cases htype : textField? "type" fields with
    | none => simp [htype] at h
    | some _ => simpa [htype] using h
  | _ => cases h

end Json

namespace Arena

/-- The child of a node at a position, if there is one. -/
def childAt? (a : Arena) (node : Handle) (i : Nat) : Option Handle :=
  (a.shape? node).bind fun s ↦ s.children[i]?.filter fun child ↦ !child.isAbsent

/-- The node that a path of positions among children leads to. -/
def below? (a : Arena) (node : Handle) : List Nat → Option Handle
  | [] => some node
  | i :: path => (a.childAt? node i).bind fun child ↦ a.below? child path

end Arena

/-! ### The tree of a value -/

namespace Tree

open Json (textField?)

/-- The tree of a value has the trees of its children as children. -/
theorem children_ofJson (v : Json) :
    (ofJson v).children = v.childValues.map (Option.map ofJson) := by
  cases v with
  | object fields =>
    rw [ofJson, Json.childValues, Json.kind]
    cases textField? "type" fields with
    | none => rfl
    | some type =>
      rw [Option.map_some, Option.getD_some]
      dsimp only
      cases Kind.ofTypeName type with
      | identifier => cases textField? "name" fields <;> rfl
      | _ => simp [children, ofField_eq, ofList_eq]
  | _ => rfl

/-- The root of the tree of a value has the type of the value: that of its kind where the type is
recognised, and its own where it is foreign. -/
theorem typeName_draft_ofJson (v : Json) (handles : List Handle) :
    ((ofJson v).draft handles).typeName = v.typeName := by
  cases v with
  | object fields =>
    rw [ofJson, Json.typeName]
    cases textField? "type" fields with
    | none => rfl
    | some type =>
      rw [Option.getD_some]
      dsimp only
      -- All recognised types are alike: their kinds give them back.
      have hrecognised : Kind.ofTypeName type ≠ .unknown → (Kind.ofTypeName type).typeName = type :=
        Kind.typeName_ofTypeName
      cases hkind : Kind.ofTypeName type <;> rw [hkind] at hrecognised
      case unknown => rfl
      case identifier =>
        cases textField? "name" fields with
        | none => rfl
        | some name => exact hrecognised (by decide)
      all_goals exact hrecognised (by decide)
  | _ => rfl

theorem kind_draft_ofJson (v : Json) (handles : List Handle) :
    ((ofJson v).draft handles).kind = v.nodeKind := by
  cases v with
  | object fields =>
    rw [ofJson, Json.nodeKind, Json.kind]
    cases textField? "type" fields with
    | none => rfl
    | some type =>
      rw [Option.map_some, Option.getD_some]
      dsimp only
      cases Kind.ofTypeName type with
      | identifier => cases textField? "name" fields <;> rfl
      | _ => rfl
  | _ => rfl

end Tree

/-! ### Paths through a block -/

namespace Shape

variable {Name Other : Type}

theorem kind_mapName (f : Name → Other) (s : Shape Name) : (s.mapName f).kind = s.kind := by
  cases s <;> rfl

theorem typeName_mapName (f : Name → Other) (s : Shape Name) :
    (s.mapName f).typeName = s.typeName := by
  cases s <;> rfl

end Shape

/-- Options that are related stay so if what they hold leads on to options that are. -/
theorem rel_bind {α β γ δ : Type} {R : α → β → Prop} {S : γ → δ → Prop} {x : Option α}
    {y : Option β} {f : α → Option γ} {g : β → Option δ} (h : Option.Rel R x y)
    (hfg : ∀ {c d}, R c d → Option.Rel S (f c) (g d)) : Option.Rel S (x.bind f) (y.bind g) := by
  cases h with
  | none => exact .none
  | some hcd => exact hfg hcd

theorem map_eq_map_of_rel {α β γ : Type} {R : α → β → Prop} {x : Option α} {y : Option β}
    {f : α → γ} {g : β → γ} (h : Option.Rel R x y) (hfg : ∀ {c d}, R c d → f c = g d) :
    x.map f = y.map g := by
  cases h with
  | none => rfl
  | some hcd => exact congrArg some (hfg hcd)

namespace Arena

open BoundNames.Tree

variable {a : Arena} {base : Nat}

/-- A node stands for a value if the tree of the value is laid out with the node as its root. -/
def StandsFor (a : Arena) (node : Handle) (v : Json) : Prop :=
  ∃ base, a.Laid base (ofJson v) ∧ node = (ofJson v).rootAt base

theorem Laid.rootAt_ne_absent {t : Tree} (h : a.Laid base t) : t.rootAt base ≠ .absent := by
  obtain ⟨-, root⟩ := h
  exact ne_absent_of_node? root

theorem Laid.items {t : Tree} (h : a.Laid base t) : a.LaidItems base t.children := by
  obtain ⟨below, -⟩ := h
  exact below

theorem Laid.childAt?_rootAt {t : Tree} (h : a.Laid base t) (i : Nat) :
    a.childAt? (t.rootAt base) i =
      (handlesAt base t.children)[i]?.filter fun child ↦ !child.isAbsent := by
  obtain ⟨s, hs, hchildren⟩ := h.exists_shape
  rw [childAt?, hs, Option.bind_some, hchildren]

theorem filter_present {child : Handle} (h : child ≠ .absent) :
    (some child).filter (fun child ↦ !child.isAbsent) = some child := by
  rw [Option.filter_some, if_pos (by simpa [Handle.isAbsent] using h)]

/-- At each position of values that are laid out stands a node for the value, and none for a
hole. -/
theorem LaidItems.standsFor {values : List (Option Json)} (i : Nat)
    (h : a.LaidItems base (values.map (Option.map ofJson))) :
    Option.Rel a.StandsFor
      ((handlesAt base (values.map (Option.map ofJson)))[i]?.filter fun child ↦ !child.isAbsent)
      values[i]?.join := by
  induction values generalizing base i with
  | nil => exact .none
  | cons value others ih =>
    cases value with
    | none =>
      obtain _ | tail := h
      cases i with
      | zero => exact .none
      | succ i => exact ih i tail
    | some v =>
      obtain _ | _ | ⟨head, tail⟩ := h
      cases i with
      | zero =>
        rw [List.map_cons, Option.map_some, handlesAt, List.getElem?_cons_zero,
          filter_present head.rootAt_ne_absent]
        exact .some ⟨base, head, rfl⟩
      | succ i => exact ih i tail

namespace StandsFor

variable {node : Handle} {v : Json} (h : a.StandsFor node v)

include h

theorem childAt? (i : Nat) : Option.Rel a.StandsFor (a.childAt? node i) (v.childAt? i) := by
  obtain ⟨base, hlaid, rfl⟩ := h
  have hitems := hlaid.items
  rw [hlaid.childAt?_rootAt]
  rw [children_ofJson] at hitems ⊢
  exact hitems.standsFor i

/-- A path leads from the node of a value to a node exactly if it leads from the value to a value,
and there the node stands for the value. -/
theorem below? (path : List Nat) :
    Option.Rel a.StandsFor (a.below? node path) (v.below? path) := by
  induction path generalizing node v with
  | nil => exact .some h
  | cons i path ih => exact rel_bind (h.childAt? i) ih

/-- The node of a value has the type of the value. -/
theorem exists_header : ∃ n, a.header? node = some n ∧ n.kind = v.nodeKind ∧
    a.pools.typeName n = v.typeName := by
  obtain ⟨base, ⟨-, root⟩, rfl⟩ := h
  obtain ⟨n, s, hn, hs, -, hdraft⟩ := node?_eq_some_iff.1 root
  rw [shape?, hn, Option.bind_some] at hs
  refine ⟨n, hn, ?_, ?_⟩
  · rw [← Pools.kind_of_shape? hs, ← Shape.kind_mapName a.symbols.name, hdraft, kind_draft_ofJson]
  · rw [Pools.typeName_of_shape? hs, ← Shape.typeName_mapName a.symbols.name, hdraft,
      typeName_draft_ofJson]

end StandsFor

/-- Each position of a block of children is in the block of one of them. -/
theorem LaidItems.exists_child {items : List (Option Tree)} {k : Nat} (h : a.LaidItems base items)
    (hfirst : base ≤ k) (hlast : k < base + sizeItems items) :
    ∃ (i start : Nat) (t : Tree), items[i]? = some (some t) ∧ a.Laid start t ∧
      (handlesAt base items)[i]? = some (t.rootAt start) ∧ start ≤ k ∧ k < start + t.size := by
  induction items generalizing base with
  | nil => exact absurd hlast (Nat.not_lt_of_le hfirst)
  | cons item others ih =>
    cases h with
    | hole tail =>
      simp only [sizeItems, sizeChild, Nat.zero_add] at hlast
      obtain ⟨i, child⟩ := ih tail hfirst hlast
      exact ⟨i + 1, child⟩
    | cons head tail =>
      rename_i t
      simp only [sizeItems, sizeChild, ← Nat.add_assoc] at hlast
      by_cases hk : k < base + t.size
      · exact ⟨0, base, t, rfl, head, rfl, hfirst, hk⟩
      · obtain ⟨i, child⟩ := ih tail (by omega) hlast
        exact ⟨i + 1, child⟩

/-- Each position of the block of a tree is on a path from the root of the tree. -/
theorem Laid.exists_below? {t : Tree} {k : Nat} (h : a.Laid base t) (hfirst : base ≤ k)
    (hlast : k < base + t.size) : ∃ path, a.below? (t.rootAt base) path = some (.ofNat k) := by
  induction t using children_induction generalizing base with
  | h t ih =>
    rw [size_eq] at hlast
    by_cases hk : k = base + sizeItems t.children
    · -- The root is the last of its block.
      exact ⟨[], by rw [below?, rootAt, hk]⟩
    · obtain ⟨i, start, c, hc, hlaid, hroot, hstart, hend⟩ :=
        h.items.exists_child hfirst (by omega : k < base + sizeItems t.children)
      obtain ⟨path, hpath⟩ := ih c (List.mem_of_getElem? hc) hlaid hstart hend
      refine ⟨i :: path, ?_⟩
      rw [below?, h.childAt?_rootAt, hroot, filter_present hlaid.rootAt_ne_absent, Option.bind_some,
        hpath]

end Arena

/-- A node of a recognised kind has the type of its kind. -/
theorem Pools.ofTypeName_typeName {p : Pools} {n : Header} (h : n.kind ≠ .unknown) :
    Kind.ofTypeName (p.typeName n) = n.kind := by
  rw [typeName, foreign?, fetch, decide_eq_false h, Bool.and_false, if_neg Bool.false_ne_true,
    Option.getD_none, Kind.ofTypeName_typeName]

theorem Extraction.value_tree_eq_error_iff {v : Json} {e : Rejection} :
    (tree v).value = .error e ↔ Lowering.rootType v = .error e := by
  cases htype : Lowering.rootType v with
  | error _ =>
    rw [tree, htype]
    simp only [Except.error.injEq]
  | ok _ =>
    rw [tree_of_rootType_ok htype]
    simp only [reduceCtorEq]

namespace Lowering

theorem standsFor_lower {s : Session} (hs : s.arena.Sound) {v : Json}
    (hsize : (lower v s).2.arena.size < Arena.nodeLimit) :
    (lower v s).2.arena.StandsFor (lower v s).1 v :=
  ⟨s.arena.size, laid_lower hs hsize, fst_lower_eq_rootAt v s⟩

/-- Lowering loses no type. The tree of a value is rejected exactly if its root is, for the same
reason, and otherwise its root has the type of the value. Wherever a value is lowered, each value
below it has a node on the same path, with the type of the value, be that recognised, foreign or
empty, and the kind of the type, except that an identifier without a name is foreign. These are all
the nodes that are added, and a node that is not foreign has the kind of its type. -/
theorem lower_keeps_types (v : Json) :
    (∀ e, (Extraction.tree v).value = .error e ↔ rootType v = .error e) ∧
      (∀ type, rootType v = .ok type →
        ∃ arena root, (Extraction.tree v).value = .ok (arena, root) ∧
          (arena.size < Arena.nodeLimit → arena.typeName? root = some type)) ∧
      ∀ s : Session, s.arena.Reachable → (lower v s).2.arena.size < Arena.nodeLimit →
        (∀ path, ((lower v s).2.arena.below? (lower v s).1 path).map (fun node ↦
            ((lower v s).2.arena.header? node).map fun n ↦
              (n.kind, (lower v s).2.arena.pools.typeName n)) =
          (v.below? path).map fun w ↦ some (w.nodeKind, w.typeName)) ∧
        (∀ i, s.arena.size ≤ i → i < (lower v s).2.arena.size →
          ∃ path, (lower v s).2.arena.below? (lower v s).1 path = some (.ofNat i)) ∧
        ∀ node n, (lower v s).2.arena.header? node = some n → n.kind ≠ .unknown →
          n.kind = Kind.ofTypeName ((lower v s).2.arena.pools.typeName n) := by
  refine ⟨fun e ↦ ?_, fun type htype ↦ ?_, fun s hs hsize ↦ ⟨fun path ↦ ?_, fun i hfirst hlast ↦ ?_,
    fun node n _ hkind ↦ (Pools.ofTypeName_typeName hkind).symm⟩⟩
  · exact Extraction.value_tree_eq_error_iff
  · refine ⟨_, _, Extraction.tree_of_rootType_ok htype, fun hsize ↦ ?_⟩
    obtain ⟨n, hn, -, hname⟩ := (standsFor_lower Arena.sound_prepared hsize).exists_header
    rw [Arena.typeName?, hn, Option.map_some, hname, Json.typeName_of_rootType htype]
  · refine map_eq_map_of_rel ((standsFor_lower hs.sound hsize).below? path) fun hstands ↦ ?_
    obtain ⟨n, hn, hkind, hname⟩ := hstands.exists_header
    rw [hn, Option.map_some, hkind, hname]
  · rw [size_lower] at hlast
    rw [fst_lower_eq_rootAt]
    exact (laid_lower hs.sound hsize).exists_below? hfirst hlast

/-- The value of a pattern whose elements are an identifier without a name, a hole, a rest element
with an argument of no recognised type, a number, an object without a type and one of the empty
type. -/
def oddPattern : Json :=
  .object [("type", "ArrayPattern"), ("elements", .array [
    .object [("type", "Identifier"), ("name", .ofNat 1)],
    .null,
    .object [("type", "RestElement"), ("argument", .object [("type", "ThisExpression")])],
    .ofNat 3,
    .object [("name", "a")],
    .object [("type", "")]])]

theorem types_oddPattern :
    rootType oddPattern = .ok "ArrayPattern" ∧
      [[], [0], [1], [2], [2, 0], [3], [4], [5]].map (fun path ↦
        ((lower oddPattern startedSession).2.arena.below? (.ofNat 7) path).map fun node ↦
          ((lower oddPattern startedSession).2.arena.header? node).map fun n ↦
            (n.kind, (lower oddPattern startedSession).2.arena.pools.typeName n)) =
      [some (some (.arrayPattern, "ArrayPattern")), some (some (.unknown, "Identifier")), none,
        some (some (.restElement, "RestElement")), some (some (.unknown, "ThisExpression")),
        some (some (.unknown, "")), some (some (.unknown, "")), some (some (.unknown, ""))] := by
  have hroot : (lower oddPattern startedSession).1 = .ofNat 7 := by decide +kernel
  have hreachable : startedSession.arena.Reachable := ⟨{}, _, .inl rfl, rfl⟩
  obtain ⟨-, -, hbelow⟩ := lower_keeps_types oddPattern
  obtain ⟨hpaths, -, -⟩ := hbelow startedSession hreachable (by decide +kernel)
  rw [hroot] at hpaths
  simp only [hpaths]
  exact ⟨by decide +kernel, by decide +kernel⟩

end Lowering

end BoundNames

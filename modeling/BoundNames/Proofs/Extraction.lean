import BoundNames.Extraction
import BoundNames.Proofs.Layout
import BoundNames.Proofs.TreeBindings

/-!
# What extraction gives

The names that are extracted from a JSON value, through an arena, a table of symbols and a walk, are
those that the value binds by recursion on the value alone (`value_eq_bindings`). A lowered value
unfolds from its root to the tree of the value, and a walk from the root reads the bindings of that
tree.
-/

set_option autoImplicit false
set_option relaxedAutoImplicit false

namespace BoundNames

/-- A walk from a lowered value collects what a visit of its root does, which are identifiers with
the names and the spans that the value binds. -/
theorem Lowering.walk_lower {s : Session} (hs : s.arena.Sound) (v : Json)
    (hsize : (lower v s).2.arena.size < Arena.nodeLimit) (t : Trail) :
    ((lower v s).2.arena.walk (lower v s).1 t).1 = .ok () ∧
      ((lower v s).2.arena.walk (lower v s).1 t).2.found.toList =
        t.found.toList ++ (lower v s).2.arena.bindersOf (lower v s).1 ∧
      List.Forall₂ (lower v s).2.arena.Reads ((lower v s).2.arena.bindersOf (lower v s).1)
        v.bindings := by
  rw [fst_lower, Tree.fst_store, arena_lower, ← Tree.bindings_ofJson]
  rw [arena_lower, Tree.size_store] at hsize
  have hdescends := ((Tree.builds_store (Tree.ofJson v) s.arena).sound hs).descends
  have hlaid := Tree.laid_store hs hsize
  have hreads := Arena.reads_bindersOf hdescends (hlaid.tree?_eq_some (Nat.le_refl _))
  cases hlaid with
  | node _ root =>
    obtain ⟨n, _, hn, -⟩ := Arena.node?_eq_some_iff.1 root
    obtain ⟨hok, hfound⟩ := Arena.walk_of_header? hdescends hn t
    exact ⟨hok, hfound, hreads⟩

namespace Arena

theorem map_of_reads {a : Arena} {handles : List Handle} {bindings : List (String × Span)}
    (h : List.Forall₂ a.Reads handles bindings) :
    handles.map (fun node ↦ (a.name? node, a.span? node)) =
      bindings.map fun x ↦ (some x.1, some x.2) := by
  rw [← List.forall₂_eq_eq_eq, List.forall₂_map_left_iff, List.forall₂_map_right_iff]
  exact h.imp fun _ _ hread ↦ Prod.ext hread.1 hread.2

/-- Each identifier has its name among the names. -/
theorem filterMap_name?_of_reads {a : Arena} {handles : List Handle}
    {bindings : List (String × Span)} (h : List.Forall₂ a.Reads handles bindings) :
    handles.filterMap a.name? = bindings.map Prod.fst := by
  induction h with
  | nil => rfl
  | cons head _ ih => rw [List.filterMap_cons_some head.1, ih, List.map_cons]

end Arena

/-- The word for a value that is no object. -/
inductive Json.Called : Json → String → Prop where
  | null : Called .null "null"
  | bool {b : Bool} : Called (.bool b) "boolean"
  | number {x : Number} : Called (.number x) "number"
  | string {text : String} : Called (.string text) "string"
  | array {items : List Json} : Called (.array items) "array"

namespace Extraction

open Lowering (rootType lower holedPattern)

theorem value_of_rootType_error {v : Json} {e : Rejection} (h : rootType v = .error e) :
    (identifiers v).value = .error e ∧ (names v).value = .error e := by
  simp [names, identifiers, tree, h, Except.map]

/-- Without a rejection, extraction is a walk of the lowered tree. -/
theorem identifiers_of_tree {v : Json} {arena : Arena} {root : Handle}
    (h : (tree v).value = .ok (arena, root))
    (hok : (arena.walk root { events := (tree v).events }).1 = .ok ()) :
    (identifiers v).value =
      .ok (arena, (arena.walk root { events := (tree v).events }).2.found) := by
  simp only [identifiers, h, hok, Except.map]

/-- A value with a type is lowered into an arena that holds only the common names. -/
theorem tree_of_rootType_ok {v : Json} {type : String} (h : rootType v = .ok type) :
    (tree v).value = .ok ((lower v { arena := .prepared }).2.arena,
      (lower v { arena := .prepared }).1) := by
  rw [tree, h]
  rfl

/-- After the reports of lowering the tree itself is reported. -/
theorem events_tree_of_rootType_ok {v : Json} {type : String} (h : rootType v = .ok type) :
    (tree v).events = (lower v { arena := .prepared }).2.events.push
      (.lowered (lower v { arena := .prepared }).2.arena.size
        (lower v { arena := .prepared }).1) := by
  rw [tree, h]
  rfl

/-- What is extracted from a value with a type is what a visit of its root collects. -/
theorem identifiers_of_rootType_ok {v : Json} {type : String} (h : rootType v = .ok type)
    (hsize : ((lower v).run { arena := .prepared }).2.arena.size < Arena.nodeLimit) :
    ∃ arena root handles, (tree v).value = .ok (arena, root) ∧
      (identifiers v).value = .ok (arena, handles) ∧ handles.toList = arena.bindersOf root ∧
      List.Forall₂ arena.Reads handles.toList v.bindings := by
  obtain ⟨hok, hfound, hreads⟩ :=
    Lowering.walk_lower Arena.sound_prepared v hsize { events := (tree v).events }
  have htree := tree_of_rootType_ok h
  rw [List.nil_append] at hfound
  rw [← hfound] at hreads
  exact ⟨_, _, _, htree, identifiers_of_tree htree hok, hfound, hreads⟩

theorem value_of_rootType_ok {v : Json} {type : String} (h : rootType v = .ok type)
    (hsize : ((lower v).run { arena := .prepared }).2.arena.size < Arena.nodeLimit) :
    ∃ arena handles, (identifiers v).value = .ok (arena, handles) ∧
      List.Forall₂ arena.Reads handles.toList v.bindings := by
  obtain ⟨arena, _, handles, -, hvalue, -, hreads⟩ := identifiers_of_rootType_ok h hsize
  exact ⟨arena, handles, hvalue, hreads⟩

theorem names_of_reads {v : Json} {arena : Arena} {handles : Array Handle}
    {bindings : List (String × Span)} (hvalue : (identifiers v).value = .ok (arena, handles))
    (hreads : List.Forall₂ arena.Reads handles.toList bindings) :
    (names v).value = .ok (bindings.map Prod.fst) := by
  rw [names, hvalue]
  exact congrArg Except.ok (Arena.filterMap_name?_of_reads hreads)

/-- Extraction rejects a value that is no object, with the word for it, and an object without a
type. From all others that stay below the limit it extracts identifiers that read, in order, as the
names and the spans that the value binds, and the names are the names of these bindings, each of
them. -/
theorem value_eq_bindings (v : Json)
    (hsize : ((lower v).run { arena := .prepared }).2.arena.size < Arena.nodeLimit) :
    ((∀ fields, v ≠ .object fields) →
        (identifiers v).value = .error (.notObject v.sort) ∧
          (names v).value = .error (.notObject v.sort)) ∧
      (∀ word, v.Called word →
        (identifiers v).value = .error (.notObject word) ∧
          (names v).value = .error (.notObject word)) ∧
      (∀ fields, v = .object fields → Json.textField? "type" fields = none →
        (identifiers v).value = .error .untyped ∧ (names v).value = .error .untyped) ∧
      ∀ fields type, v = .object fields → Json.textField? "type" fields = some type →
        ∃ arena handles, (identifiers v).value = .ok (arena, handles) ∧
          handles.toList.map (fun node ↦ (arena.name? node, arena.span? node)) =
            v.bindings.map (fun x ↦ (some x.1, some x.2)) ∧
          (names v).value = .ok (v.bindings.map Prod.fst) := by
  refine ⟨fun hv ↦ value_of_rootType_error ?_, fun word hword ↦ value_of_rootType_error ?_, ?_, ?_⟩
  · cases v with
    | object fields => exact absurd rfl (hv fields)
    | _ => rfl
  · cases hword <;> rfl
  · rintro fields rfl htype
    exact value_of_rootType_error (by rw [rootType, htype])
  · rintro fields type rfl htype
    obtain ⟨arena, handles, hvalue, hreads⟩ :=
      value_of_rootType_ok (by rw [rootType, htype]) hsize
    refine ⟨arena, handles, hvalue, Arena.map_of_reads hreads, ?_⟩
    rw [names, hvalue]
    exact congrArg Except.ok (Arena.filterMap_name?_of_reads hreads)

theorem value_holedPattern :
    (∃ arena handles, (identifiers holedPattern).value = .ok (arena, handles) ∧
      handles.toList.map (fun node ↦ (arena.name? node, arena.span? node)) =
        [(some "a", some ⟨1, 2⟩), (some "b", some .nowhere)] ∧
      (names holedPattern).value = .ok ["a", "b"]) ∧
      (names (.array [holedPattern])).value = .error (.notObject "array") :=
  ⟨(value_eq_bindings holedPattern (by decide +kernel)).2.2.2 _ _ rfl rfl,
    ((value_eq_bindings (.array [holedPattern]) (by decide +kernel)).2.1 _ .array).2⟩

end Extraction

end BoundNames

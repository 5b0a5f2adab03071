import BoundNames.Proofs.Order

/-!
# What extraction reports

Lowering reports each foreign node that it adds, just before it adds it, and nothing else: no child
that it passes on is ever refused, as the handles of nodes that were added are those of nodes that
are there. `Accounts` says this of one step, for all handles that are known before it, and it holds
of the steps of lowering one after the other (`lower_accounts`). No bound on the size of the arena
is needed for that.

A walk follows the marks of its root, which are in increasing order. So the nodes that it reports
are too, and none of them is among those that it collects. Both together are all that extraction
reports (`Recounts`, `events_names`), with the levels, messages and fields of `Displays`.
-/

set_option autoImplicit false
set_option relaxedAutoImplicit false

namespace BoundNames

/-! ### Reports of foreign nodes -/

/-- The type of the foreign node that an event of lowering reports. -/
def Event.foreignType? : Event → Option String
  | notNode _ | untypedNode => some ""
  | namelessIdentifier => some "Identifier"
  | foreignNode typeName => some typeName
  | _ => none

/-- The events of a session report the foreign nodes of its arena, each once and in their order, and
nothing else. -/
def Session.Accounted (s : Session) : Prop :=
  s.events.toList.map Event.foreignType? = s.arena.pools.foreigns.toList.map some

namespace Arena

variable {a : Arena}

theorem admits_add {child : Handle} (h : a.admits child = true) (span : Span) (draft : Draft) :
    (a.add span draft).2.admits child = true := by
  simp only [admits, size_add, Bool.or_eq_true, decide_eq_true_eq] at h ⊢
  exact h.imp_right fun hlt ↦ Nat.lt_succ_of_lt hlt

/-- A node that was added may be a child at once, also if the high bits of its position are cut
off. -/
theorem admits_fst_add (a : Arena) (span : Span) (draft : Draft) :
    (a.add span draft).2.admits (a.add span draft).1 = true := by
  simp only [admits, size_add, fst_add, Bool.or_eq_true, decide_eq_true_eq]
  exact .inr (Nat.lt_succ_of_le (Handle.toNat_ofNat a.size ▸ Nat.mod_le _ _))

theorem foreigns_add_foreign (a : Arena) (span : Span) (type : String) :
    (a.add span (.foreign type)).2.pools.foreigns = a.pools.foreigns.push type := rfl

theorem foreigns_add (a : Arena) (span : Span) {draft : Draft}
    (h : ∀ type, draft ≠ .foreign type) :
    (a.add span draft).2.pools.foreigns = a.pools.foreigns := by
  cases draft with
  | foreign type => exact absurd rfl (h type)
  | _ => rfl

end Arena

namespace Lowering

open Json (textField?)

/-- From an accounted session whose arena admits the handles in `known`, the step leads to such a
session, and the handles of the result are admitted as well. -/
def Accounts {α : Type} (known : List Handle) (handles : α → List Handle)
    (m : StateM Session α) : Prop :=
  ∀ s : Session, s.Accounted → (∀ h ∈ known, s.arena.admits h = true) →
    (m s).2.Accounted ∧ ∀ h ∈ known ++ handles (m s).1, (m s).2.arena.admits h = true

namespace Accounts

variable {α β : Type} {known : List Handle} {handles : α → List Handle} {others : β → List Handle}

protected theorem pure {x : α} (hx : ∀ h ∈ handles x, h = .absent ∨ h ∈ known) :
    Accounts known handles (pure x) := by
  intro s hs hknown
  refine ⟨hs, fun h hh ↦ ?_⟩
  rcases List.mem_append.1 hh with hh | hh
  · exact hknown h hh
  · rcases hx h hh with rfl | hh
    · rfl
    · exact hknown h hh

protected theorem bind {m : StateM Session α} {f : α → StateM Session β}
    (hm : Accounts known handles m) (hf : ∀ x, Accounts (known ++ handles x) others (f x)) :
    Accounts known others (m >>= f) := by
  intro s hs hknown
  obtain ⟨hs, hadmits⟩ := hm s hs hknown
  obtain ⟨hs, hadmits⟩ := hf _ _ hs hadmits
  refine ⟨hs, fun h hh ↦ hadmits h ?_⟩
  rcases List.mem_append.1 hh with hh | hh
  · exact List.mem_append_left _ (List.mem_append_left _ hh)
  · exact List.mem_append_right _ hh

/-- No child is refused if all of them are known. -/
theorem refused_eq_nil {a : Arena} {draft : Draft}
    (hchildren : ∀ child ∈ draft.children, child = .absent ∨ child ∈ known)
    (hknown : ∀ h ∈ known, a.admits h = true) : a.refused draft = [] := by
  rw [Arena.refused, List.filter_eq_nil_iff]
  intro child hchild
  have hadmits : a.admits child = true := by
    rcases hchildren child hchild with rfl | hmem
    · rfl
    · exact hknown child hmem
  simp [hadmits]

theorem admits_of_mem {s : Session} (hknown : ∀ h ∈ known, s.arena.admits h = true) (span : Span)
    (draft : Draft) :
    ∀ h ∈ known ++ [(Session.add span draft s).1],
      (Session.add span draft s).2.arena.admits h = true := by
  intro h hh
  rcases List.mem_append.1 hh with hh | hh
  · exact Arena.admits_add (hknown h hh) span draft
  · obtain rfl := List.mem_singleton.1 hh
    exact s.arena.admits_fst_add span draft

/-- The addition of a node that is not foreign reports nothing. -/
theorem add (span : Span) {draft : Draft} (hdraft : ∀ type, draft ≠ .foreign type)
    (hchildren : ∀ child ∈ draft.children, child = .absent ∨ child ∈ known) :
    Accounts known ([·]) (Session.add span draft) := by
  intro s hs hknown
  refine ⟨?_, admits_of_mem hknown span draft⟩
  have hrefused := refused_eq_nil hchildren hknown
  have hforeigns := s.arena.foreigns_add span hdraft
  simpa [Session.Accounted, Session.add, hrefused, hforeigns] using hs

/-- The addition of a foreign node comes with one report of it. -/
theorem addForeign (span : Span) {e : Event} {type : String} (he : e.foreignType? = some type) :
    Accounts known ([·]) (do Session.report e; Session.add span (.foreign type)) := by
  intro s hs hknown
  refine ⟨?_, admits_of_mem (s := { s with events := s.events.push e }) hknown span _⟩
  have hrefused : s.arena.refused (.foreign type) = [] := rfl
  have hforeigns := s.arena.foreigns_add_foreign span type
  change (s.events.push e ++ _).toList.map _ = (s.arena.add span _).2.pools.foreigns.toList.map _
  rw [hforeigns, hrefused]
  simpa [he, Session.Accounted] using hs

end Accounts

mutual

/-- Lowering reports the foreign nodes that it adds, and refuses no child. -/
theorem lower_accounts : ∀ (v : Json) (known : List Handle), Accounts known ([·]) (lower v)
  | .object fields, known => by
    have hfield : ∀ key known, Accounts known ([·]) (lowerField key fields) :=
      fun key ↦ lowerField_accounts key fields
    have hlist : ∀ key known, Accounts known id (lowerList key fields) :=
      fun key ↦ lowerList_accounts key fields
    rw [lower]
    cases textField? "type" fields with
    | none => exact .addForeign _ rfl
    | some type =>
      dsimp only
      cases hkind : Kind.ofTypeName type with
      | unknown => exact .addForeign _ rfl
      | identifier =>
        dsimp only
        cases textField? "name" fields with
        | none =>
          have htype := Kind.typeName_ofTypeName (by rw [hkind]; decide : Kind.ofTypeName type ≠ _)
          rw [hkind] at htype
          exact .addForeign _ (congrArg some htype)
        | some name => exact .add _ nofun (by simp [Shape.children])
      | literal => exact .add _ nofun (by simp [Shape.children])
      | arrayPattern =>
        exact (hlist "elements" _).bind fun _ ↦
          .add _ nofun (by simp +contextual [Shape.children])
      | objectPattern =>
        exact (hlist "properties" _).bind fun _ ↦
          .add _ nofun (by simp +contextual [Shape.children])
      | property =>
        exact (hfield "key" _).bind fun _ ↦ (hfield "value" _).bind fun _ ↦
          .add _ nofun (by simp [Shape.children])
      | restElement =>
        exact (hfield "argument" _).bind fun _ ↦ .add _ nofun (by simp [Shape.children])
      | assignmentPattern =>
        exact (hfield "left" _).bind fun _ ↦ (hfield "right" _).bind fun _ ↦
          .add _ nofun (by simp [Shape.children])
      | importDeclaration =>
        exact (hlist "specifiers" _).bind fun _ ↦ (hfield "source" _).bind fun _ ↦
          .add _ nofun (by simp +contextual [Shape.children])
      | importSpecifier =>
        exact (hfield "imported" _).bind fun _ ↦ (hfield "local" _).bind fun _ ↦
          .add _ nofun (by simp [Shape.children])
      | importDefaultSpecifier =>
        exact (hfield "local" _).bind fun _ ↦ .add _ nofun (by simp [Shape.children])
      | importNamespaceSpecifier =>
        exact (hfield "local" _).bind fun _ ↦ .add _ nofun (by simp [Shape.children])
  | .null, _ | .bool _, _ | .number _, _ | .string _, _ | .array _, _ => .addForeign _ rfl

theorem lowerField_accounts (key : String) : ∀ (fields : List (String × Json))
    (known : List Handle), Accounts known ([·]) (lowerField key fields)
  | [], _ => .pure (by simp)
  | (k, v) :: others, known => by
    rw [lowerField]
    split
    · split
      · exact .pure (by simp)
      · exact lower_accounts v known
    · exact lowerField_accounts key others known

theorem lowerList_accounts (key : String) : ∀ (fields : List (String × Json))
    (known : List Handle), Accounts known id (lowerList key fields)
  | [], _ => .pure (by simp)
  | (k, v) :: others, known => by
    unfold lowerList
    split
    · cases v with
      | array items => exact lowerItems_accounts items known
      | _ => exact .pure (by simp)
    · exact lowerList_accounts key others known

theorem lowerItems_accounts : ∀ (items : List Json) (known : List Handle),
    Accounts known id (lowerItems items)
  | [], _ => .pure (by simp)
  | v :: others, known => by
    have htail : ∀ head, Accounts (known ++ [head]) id
        (do let tail ← lowerItems others; return head :: tail) :=
      fun head ↦ (lowerItems_accounts others _).bind fun tail ↦ .pure (by simp +contextual)
    rw [lowerItems]
    split
    · have hhole : Accounts known ([·]) (pure .absent) := .pure (by simp)
      exact hhole.bind htail
    · exact (lower_accounts v known).bind htail

end

end Lowering

/-! ### All that is reported -/

/-- A walk from a lowered value follows a row of marks in increasing order. -/
theorem Lowering.walk_lower_eq_follow {s : Session} (hs : s.arena.Sound) {v : Json}
    (hsize : (lower v s).2.arena.size < Arena.nodeLimit) (t : Trail) :
    ∃ steps u, (∀ step ∈ steps, step.Marks (lower v s).2.arena) ∧
      (steps.filterMap Step.node?).Pairwise (· < ·) ∧
      u = (t.report (.walking (lower v s).1)).follow steps ∧
      (lower v s).2.arena.walk (lower v s).1 t =
        (.ok (), u.report (.collected (u.found.size - t.found.size))) := by
  have hlaid := laid_lower hs hsize
  have hwords : s.arena.size + (Tree.ofJson v).size ≤ UInt32.size := by
    rw [size_lower] at hsize
    exact Nat.le_of_lt (Nat.lt_trans hsize Arena.nodeLimit_lt)
  obtain ⟨shape, hshape, -⟩ := hlaid.exists_shape
  obtain ⟨n, hn, -⟩ := Option.bind_eq_some_iff.1 hshape
  rw [fst_lower_eq_rootAt]
  obtain ⟨u, hu, hwalk⟩ := Arena.walk_eq_follow (sound_lower hs v).descends hn t
  exact ⟨_, u, Arena.marks_of_mem_marks _ _, (hlaid.ascends_marks hwords _).increasing, hu, hwalk⟩

/-- Lists that agree under two maps agree item by item. -/
theorem forall₂_of_map_eq {α β γ : Type} {f : α → γ} {g : β → γ} {l : List α} {l' : List β}
    (h : l.map f = l'.map g) : List.Forall₂ (fun x y ↦ f x = g y) l l' := by
  rwa [← List.forall₂_eq_eq_eq, List.forall₂_map_left_iff, List.forall₂_map_right_iff] at h

namespace Event

/-- What an event shows: its level, its message and its fields. -/
def shown (e : Event) : Level × String × List (String × Json) :=
  (e.level, e.message, e.fields)

/-- What may be shown of a foreign node, by its type. -/
inductive ShownForeign : String → Level × String × List (String × Json) → Prop where
  | notNode {found : String} :
      ShownForeign "" (.trace, "non-object in node position", [("found", found)])
  | untyped : ShownForeign "" (.trace, "object without a type in node position", [])
  | nameless : ShownForeign "Identifier" (.trace, "identifier without a name", [])
  | foreign {type : String} : ShownForeign type (.trace, "opaque node", [("type_name", type)])

/-- What may be shown of a node that is passed over, by its handle and its type. -/
inductive ShownPassed : Handle × String → Level × String × List (String × Json) → Prop where
  | noBindings {node : Handle} {type : String} : ShownPassed (node, type)
      (.trace, "no bindings under node", [("idx", .ofNat node.toNat), ("kind", type)])
  | notAnEntry {node : Handle} {type : String} : ShownPassed (node, type)
      (.trace, "not an object-pattern entry", [("idx", .ofNat node.toNat), ("kind", type)])

theorem shownForeign_of_foreignType? {e : Event} {type : String} (h : e.foreignType? = some type) :
    ShownForeign type e.shown := by
  cases e with
  | notNode found => cases h; exact .notNode
  | untypedNode => cases h; exact .untyped
  | namelessIdentifier => cases h; exact .nameless
  | foreignNode other => cases h; exact .foreign
  | _ => cases h

theorem shownPassed_of_passed? {e : Event} {x : Handle × String} (h : e.passed? = some x) :
    ShownPassed x e.shown := by
  cases e with
  | noBindings node type => cases h; exact .noBindings
  | notAnEntry node type => cases h; exact .notAnEntry
  | _ => cases h

end Event

namespace Extraction

open Lowering (rootType lower)

/-- The events tell of an extraction from the tree under the root of an arena: of the foreign nodes,
each once and in their order, of the tree, whose root is the last node, and of a walk from the root
that ends with the number of names. The walk passes over nodes of the arena in increasing order,
with their types, and collects none of them. -/
structure Recounts (arena : Arena) (root : Handle) (handles : Array Handle) (found : List String)
    (lowering walking : List Event) (passed : List (Handle × String)) (events : Array Event) :
    Prop where
  toList_eq : events.toList = lowering ++ [.lowered arena.size root, .walking root] ++ walking ++
    [.collected found.length]
  root_last : root.toNat + 1 = arena.size
  foreigns : lowering.map Event.foreignType? = arena.pools.foreigns.toList.map some
  nodes : walking.map Event.passed? = passed.map some
  increasing : (passed.map Prod.fst).Pairwise (· < ·)
  unbound : ∀ x ∈ passed, arena.typeName? x.1 = some x.2 ∧ x.1 ∉ handles

/-- What the events of an extraction show: the reports of lowering the foreign nodes one after the
other, those of the walk the nodes that are passed over, and between and after them the tree and the
two ends of the walk. -/
structure Displays (arena : Arena) (root : Handle) (found : List String)
    (lowering walking : List Event) (passed : List (Handle × String)) : Prop where
  foreigns : List.Forall₂ (fun e type ↦ Event.ShownForeign type e.shown) lowering
    arena.pools.foreigns.toList
  nodes : List.Forall₂ (fun e x ↦ Event.ShownPassed x e.shown) walking passed
  tree : (Event.lowered arena.size root).shown =
    (.debug, "lowered ESTree tree", [("nodes", .ofNat arena.size), ("root", .ofNat root.toNat)])
  opening : (Event.walking root).shown = (.debug, "walk", [("root", .ofNat root.toNat)])
  closing : (Event.collected found.length).shown =
    (.debug, "collected assigned identifiers", [("found", .ofNat found.length)])

namespace Recounts

variable {arena : Arena} {root : Handle} {handles : Array Handle} {found : List String}
  {lowering walking : List Event} {passed : List (Handle × String)} {events : Array Event}
  (h : Recounts arena root handles found lowering walking passed events)

include h

/-- Each event of lowering and of the walk is one of a foreign node or of a node passed over. -/
theorem foreign_or_passed {e : Event} (he : e ∈ lowering ++ walking) :
    (∃ type, e.foreignType? = some type) ∨ ∃ x, e.passed? = some x := by
  rcases List.mem_append.1 he with he | he
  · have hmem := List.mem_map_of_mem (f := Event.foreignType?) he
    rw [h.foreigns] at hmem
    obtain ⟨type, -, htype⟩ := List.mem_map.1 hmem
    exact .inl ⟨type, htype.symm⟩
  · have hmem := List.mem_map_of_mem (f := Event.passed?) he
    rw [h.nodes] at hmem
    obtain ⟨x, -, hx⟩ := List.mem_map.1 hmem
    exact .inr ⟨x, hx.symm⟩

theorem level_eq_trace {e : Event} (he : e ∈ lowering ++ walking) : e.level = .trace := by
  rcases h.foreign_or_passed he with ⟨type, htype⟩ | ⟨x, hx⟩
  · cases e <;> first | rfl | cases htype
  · cases e <;> first | rfl | cases hx

theorem displays : Displays arena root found lowering walking passed where
  foreigns := (forall₂_of_map_eq h.foreigns).imp fun _ _ ↦ Event.shownForeign_of_foreignType?
  nodes := (forall₂_of_map_eq h.nodes).imp fun _ _ ↦ Event.shownPassed_of_passed?
  tree := rfl
  opening := rfl
  closing := rfl

theorem refusedChild_not_mem (child : Handle) (size : Nat) :
    .refusedChild child size ∉ events := by
  intro hmem
  rw [← Array.mem_toList_iff, h.toList_eq] at hmem
  have he : Event.refusedChild child size ∈ lowering ++ walking := by simpa using hmem
  rcases h.foreign_or_passed he with ⟨type, htype⟩ | ⟨x, hx⟩
  · cases htype
  · cases hx

end Recounts

theorem events_of_rootType_error {v : Json} {e : Rejection} (h : rootType v = .error e) :
    (names v).events = #[] := by
  simp [names, identifiers, tree, h]

theorem events_of_tree {v : Json} {arena : Arena} {root : Handle}
    (h : (tree v).value = .ok (arena, root)) :
    (names v).events = (arena.walk root { events := (tree v).events }).2.events := by
  simp only [names, identifiers, h]

theorem exists_recounts {v : Json} {type : String} (htype : rootType v = .ok type)
    (hsize : ((lower v).run { arena := .prepared }).2.arena.size < Arena.nodeLimit) :
    ∃ arena root handles found lowering walking passed,
      (tree v).value = .ok (arena, root) ∧ (identifiers v).value = .ok (arena, handles) ∧
      (names v).value = .ok found ∧
      Recounts arena root handles found lowering walking passed (names v).events := by
  have htree := tree_of_rootType_ok htype
  obtain ⟨steps, u, hmarks, hincreasing, hu, hwalk⟩ := Lowering.walk_lower_eq_follow
    Arena.sound_prepared hsize { events := (tree v).events }
  obtain ⟨passed, hpassed, hpairwise, hnodes⟩ := Arena.exists_passed hmarks hincreasing
  obtain ⟨_, _, handles, htree', hvalue, -, hreads⟩ := identifiers_of_rootType_ok htype hsize
  obtain ⟨rfl, rfl⟩ := Prod.mk.inj (Except.ok.inj (htree.symm.trans htree'))
  have hhandles : handles = u.found := by
    have hok := congrArg Prod.fst hwalk
    rw [identifiers_of_tree htree hok, hwalk] at hvalue
    exact (Prod.mk.inj (Except.ok.inj hvalue)).2.symm
  have hfound : handles.toList = steps.filterMap Step.bound? := by
    rw [hhandles, hu]
    exact Trail.found_follow _ steps
  have hlength : u.found.size = (v.bindings.map Prod.fst).length := by
    rw [← hhandles, List.length_map, ← hreads.length_eq, Array.length_toList]
  have haccounted := (Lowering.lower_accounts v [] { arena := .prepared } rfl nofun).1
  refine ⟨_, _, handles, _, _, steps.filterMap Step.event?, passed, htree, hvalue,
    names_of_reads hvalue hreads, ?_, ?_, haccounted, hpassed, hpairwise, fun x hx ↦ ?_⟩
  · rw [events_of_tree htree, hwalk, ← hlength]
    simp [Trail.report, hu, Trail.events_follow, events_tree_of_rootType_ok htype]
  · have hlast := Lowering.size_lower v { arena := .prepared }
    rw [Lowering.fst_lower_eq_rootAt, Tree.toNat_rootAt, hlast]
    exact hlast ▸ Nat.le_of_lt (Nat.lt_trans hsize Arena.nodeLimit_lt)
  · obtain ⟨htypeName, hnot⟩ := hnodes x hx
    rw [← hfound, Array.mem_toList_iff] at hnot
    exact ⟨htypeName, hnot⟩

/-- Nothing is reported of a value that is rejected. Of every other value that stays below the limit
the foreign nodes of its arena are reported first, each once and in their order, then the tree with
its size and its root, which is the last node, and then a walk from the root. The walk reports nodes
in increasing order, with their types and none of them collected, and then the number of names. All
but the tree and the two ends of the walk are details, and no child is ever refused. The levels, the
messages and the fields of all events are those of `Displays`. -/
theorem events_names (v : Json) :
    (∀ e, rootType v = .error e → (names v).events = #[]) ∧
      ∀ type, rootType v = .ok type →
        ((lower v).run { arena := .prepared }).2.arena.size < Arena.nodeLimit →
        ∃ arena root handles found lowering walking passed,
          (tree v).value = .ok (arena, root) ∧ (identifiers v).value = .ok (arena, handles) ∧
          (names v).value = .ok found ∧
          Recounts arena root handles found lowering walking passed (names v).events ∧
          (∀ e ∈ lowering ++ walking, e.level = .trace) ∧
          (∀ child size, .refusedChild child size ∉ (names v).events) ∧
          Displays arena root found lowering walking passed := by
  refine ⟨fun e h ↦ events_of_rootType_error h, fun type htype hsize ↦ ?_⟩
  obtain ⟨arena, root, handles, found, lowering, walking, passed, htree, hvalue, hnames, hevents⟩ :=
    exists_recounts htype hsize
  exact ⟨arena, root, handles, found, lowering, walking, passed, htree, hvalue, hnames, hevents,
    fun _ he ↦ hevents.level_eq_trace he, hevents.refusedChild_not_mem, hevents.displays⟩

/-- An object pattern with a name that is no entry, a property whose value is no node, and a rest
element. -/
def misshapenPattern : Json :=
  .object [("type", "ObjectPattern"), ("properties", .array [
    .object [("type", "Identifier"), ("name", "a")],
    .object [("type", "Property"), ("value", "x")],
    .object [("type", "RestElement"), ("argument",
      .object [("type", "Identifier"), ("name", "b")])]])]

theorem events_misshapenPattern :
    (names .null).events = #[] ∧
      (names misshapenPattern).events = #[.notNode "string", .lowered 6 (.ofNat 5),
        .walking (.ofNat 5), .notAnEntry (.ofNat 0) "Identifier", .noBindings (.ofNat 1) "",
        .collected 1] ∧
      ∃ arena root handles found lowering walking passed,
        (tree misshapenPattern).value = .ok (arena, root) ∧
        (identifiers misshapenPattern).value = .ok (arena, handles) ∧
        (names misshapenPattern).value = .ok found ∧
        Recounts arena root handles found lowering walking passed
          (names misshapenPattern).events ∧
        (∀ e ∈ lowering ++ walking, e.level = .trace) ∧
        (∀ child size, .refusedChild child size ∉ (names misshapenPattern).events) ∧
        Displays arena root found lowering walking passed :=
  ⟨(events_names .null).1 _ rfl, by decide +kernel,
    (events_names misshapenPattern).2 _ rfl (by decide +kernel)⟩

end Extraction

end BoundNames

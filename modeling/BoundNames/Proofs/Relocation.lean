import BoundNames.Proofs.Layout
import BoundNames.Proofs.TreeBindings

/-!
# Relocated nodes

A map of handles relocates an arena into another if each node goes to one that says the same, with
its children where the map takes them. The other arena may hold more nodes, its symbols and slots
may be others, and nothing is said of parents. A visit reads nothing but what nodes say, so from
where a node goes it takes the steps to where its steps go (`Relocates.steps`), and a walk collects
and reports what it does from the root, relocated (`Relocates.walk`).

An arena that grows is relocated into what it becomes with every node in its place. Edits without a
removal make an arena grow, so they change no answer that was given before (`answers_unchanged`).
-/

set_option autoImplicit false
set_option relaxedAutoImplicit false

namespace BoundNames

/-! ### Steps by what a node says -/

namespace Shape

variable {Name Other : Type}

/-- The ESTree type of a node of a shape. -/
def typeName : Shape Name → String
  | foreign typeName => typeName
  | s => s.kind.typeName

/-- The steps for an entry of an object pattern, by the shape of the entry. -/
def entrySteps (entry : Handle) : Shape Name → List Step
  | property data => [.visit data.value]
  | rest _ => [.visit entry]
  | s => [.report (.notAnEntry entry s.typeName)]

/-- The steps for a node that is not seen through, by its shape and by the steps for entries. -/
def steps (forEntry : Handle → List Step) (node : Handle) : Shape Name → List Step
  | identifier _ => [.bind node]
  | arrayPattern elements => (elements.filter fun element ↦ !element.isAbsent).map .visit
  | objectPattern entries => entries.flatMap forEntry
  | assignment data => [.visit data.left]
  | importing data => data.specifiers.map .visit
  | specifier _ data => [.visit data.localName]
  | s => [.report (.noBindings node s.typeName)]

theorem entrySteps_mapName (f : Name → Other) (entry : Handle) (s : Shape Name) :
    (s.mapName f).entrySteps entry = s.entrySteps entry := by
  cases s <;> rfl

theorem steps_mapName (f : Name → Other) (forEntry : Handle → List Step) (node : Handle)
    (s : Shape Name) : (s.mapName f).steps forEntry node = s.steps forEntry node := by
  cases s <;> rfl

end Shape

theorem Pools.typeName_of_shape? {p : Pools} {n : Header} {s : Shape Symbol}
    (h : p.shape? n = some s) : p.typeName n = s.typeName := by
  obtain ⟨kind, span, slot⟩ := n
  cases kind <;> simp only [shape?, Option.map_eq_some_iff] at h <;> obtain ⟨_, hdata, rfl⟩ := h
  case unknown => simp [typeName, hdata, Shape.typeName]
  all_goals simp [typeName, foreign?, fetch, Shape.typeName, Shape.kind, SpecifierForm.kind]

namespace Arena

variable {a : Arena}

theorem entrySteps_of_node? {entry : Handle} {span : Span} {draft : Draft}
    (hentry : a.node? entry = some (span, draft)) :
    a.entrySteps entry = draft.entrySteps entry := by
  obtain ⟨n, s, hn, hs, -, rfl⟩ := node?_eq_some_iff.1 hentry
  rw [shape?, hn, Option.bind_some] at hs
  have htype := Pools.typeName_of_shape? hs
  rw [Shape.entrySteps_mapName]
  cases s <;> simp [entrySteps, hn, hs, Shape.entrySteps, htype]

theorem stepsAt_of_node? {node : Handle} {n : Header} {span : Span} {draft : Draft}
    (hn : a.header? node = some n) (hnode : a.node? node = some (span, draft)) :
    a.stepsAt node n = draft.steps a.entrySteps node := by
  obtain ⟨_, s, hn', hs, -, rfl⟩ := node?_eq_some_iff.1 hnode
  rw [shape?, hn, Option.bind_some] at hs
  have htype := Pools.typeName_of_shape? hs
  rw [Shape.steps_mapName]
  cases s <;> simp [stepsAt, hs, Shape.steps, htype]

theorem steps_of_node? {node : Handle} {span : Span} {draft : Draft}
    (hnode : a.node? node = some (span, draft)) (hrest : ∀ argument, draft ≠ .rest argument) :
    a.steps node = draft.steps a.entrySteps node := by
  obtain ⟨n, s, hn, hs, -, hdraft⟩ := node?_eq_some_iff.1 hnode
  have hnot : a.isRest node = false := by
    rw [← Bool.not_eq_true, isRest_eq_true_iff]
    rintro ⟨argument, hargument⟩
    obtain rfl := Option.some.inj (hs.symm.trans hargument)
    exact hrest argument hdraft.symm
  rw [steps_eq_stepsAt hn hnot, stepsAt_of_node? hn hnode]

theorem subject?_rest {node argument : Handle} {span : Span}
    (hnode : a.node? node = some (span, .rest argument)) :
    a.subject? node = (a.header? argument).map fun m ↦ (argument, m) := by
  obtain ⟨n, s, hn, hs, -, hdraft⟩ := node?_eq_some_iff.1 hnode
  rw [shape?, hn, Option.bind_some] at hs
  have hrest : a.pools.rest? n = some argument := by
    cases s <;> cases hdraft
    exact (Pools.rest?_eq_some_iff _ _ _).2 hs
  simp only [subject?, hn, hrest]

/-- A rest element is seen through to its argument. -/
theorem steps_rest {node argument : Handle} {span span' : Span} {draft : Draft}
    (hnode : a.node? node = some (span, .rest argument))
    (hargument : a.node? argument = some (span', draft)) :
    a.steps node = draft.steps a.entrySteps argument := by
  obtain ⟨m, _, hm, -⟩ := node?_eq_some_iff.1 hargument
  simp only [steps, subject?_rest hnode, hm, Option.map_some, stepsAt_of_node? hm hargument]

theorem steps_rest_absent {node : Handle} {span : Span}
    (hnode : a.node? node = some (span, .rest .absent)) : a.steps node = [] := by
  simp only [steps, subject?_rest hnode, header?_absent, Option.map_none]

/-! ### Handles that a visit meets -/

/-- The handle is absent or that of a node that says something. -/
def Knows (a : Arena) (h : Handle) : Prop :=
  h = .absent ∨ ∃ x, a.node? h = some x

theorem Sound.exists_node? (ha : a.Sound) {node : Handle} {n : Header}
    (hn : a.header? node = some n) : ∃ x, a.node? node = some x := by
  obtain ⟨s, hs⟩ := ha.exists_shape? hn
  exact ⟨_, node?_eq_some_iff.2 ⟨n, s, hn, hs, rfl, rfl⟩⟩

/-- The children of a node precede it, so they are nodes too. -/
theorem Sound.knows_of_mentions (ha : a.Sound) {node child : Handle} (h : a.Mentions node child) :
    a.Knows child := by
  obtain ⟨s, hs, hchild⟩ := h
  rcases ha.children_lt hs hchild with habsent | hlt
  · exact .inl habsent
  · obtain ⟨hnode, hsize⟩ := isSome_header?_iff.1 (isSome_header?_of_shape? hs)
    rw [Handle.ne_absent_iff] at hnode
    obtain ⟨m, hm⟩ := Option.isSome_iff_exists.1
      (isSome_header?_iff.2 ⟨Handle.ne_absent_iff.2 (by omega), Nat.lt_trans hlt hsize⟩)
    exact .inr (ha.exists_node? hm)

theorem Sound.knows_of_mem_children (ha : a.Sound) {node child : Handle} {span : Span}
    {draft : Draft} (hnode : a.node? node = some (span, draft)) (hchild : child ∈ draft.children) :
    a.Knows child := by
  obtain ⟨n, s, -, hs, -, rfl⟩ := node?_eq_some_iff.1 hnode
  rw [Shape.children_mapName] at hchild
  exact ha.knows_of_mentions ⟨s, hs, hchild⟩

theorem Sound.knows_of_visit_mem_steps (ha : a.Sound) {node child : Handle}
    (hchild : Step.visit child ∈ a.steps node) : a.Knows child := by
  obtain ⟨parent, -, hparent⟩ := Relation.TransGen.tail'_iff.1 (transGen_of_visit_mem_steps hchild)
  exact ha.knows_of_mentions hparent

end Arena

/-! ### Steps that are relocated -/

/-- Replaces the handle that an event is about. -/
def Event.mapHandle (f : Handle → Handle) : Event → Event
  | refusedChild child size => refusedChild (f child) size
  | lowered nodes root => lowered nodes (f root)
  | walking root => walking (f root)
  | noBindings node typeName => noBindings (f node) typeName
  | notAnEntry node typeName => notAnEntry (f node) typeName
  | e => e

/-- Replaces the handle that a step is about. -/
def Step.map (f : Handle → Handle) : Step → Step
  | bind node => bind (f node)
  | visit child => visit (f child)
  | report e => report (e.mapHandle f)

/-- Replaces the handles along a trail. -/
def Trail.map (f : Handle → Handle) (t : Trail) : Trail where
  found := t.found.map f
  events := t.events.map (Event.mapHandle f)

theorem Event.mapHandle_id : Event.mapHandle id = id := by
  funext e
  cases e <;> rfl

theorem Trail.map_id (t : Trail) : t.map id = t := by
  simp [Trail.map, Event.mapHandle_id]

theorem Trail.map_collect (f : Handle → Handle) (t : Trail) (node : Handle) :
    (t.collect node).map f = (t.map f).collect (f node) := by
  simp [Trail.map, Trail.collect]

theorem Trail.map_report (f : Handle → Handle) (t : Trail) (e : Event) :
    (t.report e).map f = (t.map f).report (e.mapHandle f) := by
  simp [Trail.map, Trail.report]

/-- Steps that are relocated one by one are relocated in turn. -/
theorem Trail.foldlM_map {f : Handle → Handle} {F G : Trail → Step → Option Trail}
    {steps : List Step}
    (hstep : ∀ t, ∀ step ∈ steps, G (t.map f) (step.map f) = (F t step).map (Trail.map f)) :
    ∀ t, (steps.map (Step.map f)).foldlM G (t.map f) = (steps.foldlM F t).map (Trail.map f) := by
  induction steps with
  | nil => exact fun _ ↦ rfl
  | cons step others ih =>
    intro t
    have hothers := ih fun t step hmem ↦ hstep t step (List.mem_cons_of_mem _ hmem)
    rw [List.map_cons, List.foldlM_cons, List.foldlM_cons, hstep t step List.mem_cons_self]
    cases F t step with
    | none => rfl
    | some u => exact hothers u

namespace Shape

variable {Name : Type} {f : Handle → Handle}

theorem entrySteps_mapChildren (entry : Handle) (s : Shape Name) :
    (s.mapChildren f).entrySteps (f entry) = (s.entrySteps entry).map (Step.map f) := by
  cases s <;> rfl

/-- The steps are relocated with the node if absent children stay absent, no others become so, and
the steps for entries are relocated. -/
theorem steps_mapChildren {s : Shape Name} {forEntry forEntry' : Handle → List Step}
    (habsent : ∀ child ∈ s.children, (f child).isAbsent = child.isAbsent)
    (hentry : ∀ child ∈ s.children, forEntry' (f child) = (forEntry child).map (Step.map f))
    (node : Handle) :
    (s.mapChildren f).steps forEntry' (f node) = (s.steps forEntry node).map (Step.map f) := by
  cases s with
  | arrayPattern elements =>
    have hfilter : (elements.map f).filter (fun element ↦ !element.isAbsent) =
        (elements.filter fun element ↦ !element.isAbsent).map f := by
      rw [List.filter_map]
      congr 1
      refine List.filter_congr fun element helement ↦ ?_
      rw [Function.comp_apply, habsent element helement]
    rw [mapChildren, steps, hfilter, steps, List.map_map, List.map_map]
    rfl
  | objectPattern entries =>
    rw [mapChildren, steps, steps, List.flatMap_map, List.map_flatMap]
    exact List.flatMap_congr hentry
  | importing data =>
    rw [mapChildren, steps, steps, List.map_map, List.map_map]
    rfl
  | _ => rfl

end Shape

namespace Arena

/-- The map takes each node of `a` to a node of `b` with the same span and the same draft, whose
children are where the map takes those of the first, and it takes absent children to absent
ones. -/
structure Relocates (f : Handle → Handle) (a b : Arena) : Prop where
  absent : f .absent = .absent
  node? {node : Handle} {span : Span} {draft : Draft} (h : a.node? node = some (span, draft)) :
    b.node? (f node) = some (span, draft.mapChildren f)

namespace Relocates

variable {f : Handle → Handle} {a b : Arena} (h : Relocates f a b)

include h

theorem isAbsent_eq {node : Handle} (hnode : a.Knows node) : (f node).isAbsent = node.isAbsent := by
  rcases hnode with rfl | ⟨⟨span, draft⟩, hx⟩
  · rw [h.absent]
  · have hnode : node ≠ .absent := ne_absent_of_node? hx
    have himage : f node ≠ .absent := ne_absent_of_node? (h.node? hx)
    simp [Handle.isAbsent, hnode, himage]

theorem entrySteps {entry : Handle} (hentry : a.Knows entry) :
    b.entrySteps (f entry) = (a.entrySteps entry).map (Step.map f) := by
  rcases hentry with rfl | ⟨⟨span, draft⟩, hx⟩
  · rw [h.absent]
    rfl
  · rw [entrySteps_of_node? hx, entrySteps_of_node? (h.node? hx), Shape.entrySteps_mapChildren]

theorem draftSteps (ha : a.Sound) {node : Handle} {span : Span} {draft : Draft}
    (hnode : a.node? node = some (span, draft)) :
    (draft.mapChildren f).steps b.entrySteps (f node) =
      (draft.steps a.entrySteps node).map (Step.map f) :=
  Shape.steps_mapChildren (fun _ hchild ↦ h.isAbsent_eq (ha.knows_of_mem_children hnode hchild))
    (fun _ hchild ↦ h.entrySteps (ha.knows_of_mem_children hnode hchild)) node

/-- The steps of a visit are relocated with its node. -/
theorem steps (ha : a.Sound) {node : Handle} (hnode : a.Knows node) :
    b.steps (f node) = (a.steps node).map (Step.map f) := by
  rcases hnode with rfl | ⟨⟨span, draft⟩, hx⟩
  · rw [h.absent]
    rfl
  · have himage := h.node? hx
    by_cases hrest : ∃ argument, draft = .rest argument
    · obtain ⟨argument, rfl⟩ := hrest
      rcases ha.knows_of_mem_children hx (List.mem_singleton.2 rfl) with rfl | ⟨⟨span', draft'⟩, hy⟩
      · rw [Shape.mapChildren, h.absent] at himage
        rw [steps_rest_absent hx, steps_rest_absent himage, List.map_nil]
      · rw [steps_rest hx hy, steps_rest himage (h.node? hy), h.draftSteps ha hy]
    · have hnot : ∀ argument, draft ≠ .rest argument := not_exists.1 hrest
      have hnot' : ∀ argument, draft.mapChildren f ≠ .rest argument := by
        intro argument heq
        cases draft with
        | rest inner => exact hnot inner rfl
        | _ => cases heq
      rw [steps_of_node? hx hnot, steps_of_node? himage hnot', h.draftSteps ha hx]

/-- A visit is relocated with its node. Each of the two arenas needs a budget of its own, as their
heights differ. -/
theorem visit (ha : a.Sound) (hb : b.Descends) (budget : Nat) :
    ∀ other node t, a.Knows node → a.height node < budget → b.height (f node) < other →
      b.visit other (f node) (t.map f) = (a.visit budget node t).map (Trail.map f) := by
  induction budget with
  | zero => exact fun _ _ _ _ hheight ↦ absurd hheight (Nat.not_lt_zero _)
  | succ budget ih =>
    intro other node t hnode hheight hother
    obtain ⟨other, rfl⟩ : ∃ k, other = k + 1 := ⟨other - 1, by omega⟩
    have hsteps := h.steps ha hnode
    rw [Arena.visit, Arena.visit, hsteps]
    refine Trail.foldlM_map (fun t step hstep ↦ ?_) t
    cases step with
    | bind identifier => exact congrArg some (Trail.map_collect f t identifier).symm
    | visit child =>
      have hlt := height_lt_of_visit_mem_steps ha.descends hstep
      have hstep' : Step.visit (f child) ∈ b.steps (f node) := by
        rw [hsteps]
        exact List.mem_map_of_mem hstep
      have hlt' := height_lt_of_visit_mem_steps hb hstep'
      exact ih other child t (ha.knows_of_visit_mem_steps hstep) (by omega) (by omega)
    | report e => exact congrArg some (Trail.map_report f t e).symm

/-- A walk from a node is relocated with the node: what it collects and what it reports. -/
theorem walk (ha : a.Sound) (hb : b.Descends) {root : Handle} {span : Span}
    {draft : Draft} (hroot : a.node? root = some (span, draft)) (t : Trail) :
    b.walk (f root) (t.map f) = ((a.walk root t).1, (a.walk root t).2.map f) := by
  have hheight : a.height root < a.size + 1 := Nat.lt_succ_of_le (a.height_le_size root)
  have hheight' : b.height (f root) < b.size + 1 := Nat.lt_succ_of_le (b.height_le_size (f root))
  obtain ⟨u, hu⟩ :=
    exists_visit_eq_some ha.descends (a.size + 1) root (t.report (.walking root)) hheight
  have hu' : b.visit (b.size + 1) (f root) ((t.map f).report (.walking (f root))) =
      some (u.map f) := by
    have hvisit := h.visit ha hb _ _ root (t.report (.walking root)) (.inr ⟨_, hroot⟩) hheight
      hheight'
    rwa [hu, Trail.map_report] at hvisit
  obtain ⟨n, -, hn, -⟩ := node?_eq_some_iff.1 hroot
  obtain ⟨n', -, hn', -⟩ := node?_eq_some_iff.1 (h.node? hroot)
  rw [walk_of_visit hn hu, walk_of_visit hn' hu', Trail.map_report]
  simp [Trail.map, Event.mapHandle]

/-- The identifiers that a node binds are relocated with the node. -/
theorem bindersOf (ha : a.Sound) (hb : b.Descends) {node : Handle} {span : Span} {draft : Draft}
    (hnode : a.node? node = some (span, draft)) :
    b.bindersOf (f node) = (a.bindersOf node).map f := by
  obtain ⟨n, -, hn, -⟩ := node?_eq_some_iff.1 hnode
  obtain ⟨n', -, hn', -⟩ := node?_eq_some_iff.1 (h.node? hnode)
  have hfound := (walk_of_header? ha.descends hn {}).2
  have hfound' := (walk_of_header? hb hn' (Trail.map f {})).2
  rw [h.walk ha hb hnode] at hfound'
  simpa [Trail.map, hfound] using hfound'.symm

/-- An identifier has its name and its span where it is relocated. -/
theorem name?_and_span? {node : Handle} {symbol : Symbol}
    (hs : a.shape? node = some (.identifier symbol)) :
    b.name? (f node) = a.name? node ∧ b.span? (f node) = a.span? node := by
  obtain ⟨n, hn, -⟩ := Option.bind_eq_some_iff.1 hs
  have himage := h.node? (node?_eq_some_iff.2 ⟨n, _, hn, hs, rfl, rfl⟩)
  obtain ⟨n', s', hn', hs', hspan, hname⟩ := node?_eq_some_iff.1 himage
  cases s' with
  | identifier symbol' =>
    rw [name?_of_shape? hs, name?_of_shape? hs', span?, span?, hn, hn', Option.map_some,
      Option.map_some, hspan, Shape.identifier.inj hname]
    exact ⟨rfl, rfl⟩
  | _ => cases hname

end Relocates

/-! ### Arenas that grow -/

/-- An arena is relocated into one that it grows to with every node in its place. -/
theorem Extends.relocates {a b : Arena} (h : a.Extends b) (ha : a.Sound) : Relocates id a b where
  absent := rfl
  node? hnode := by
    rw [Shape.mapChildren_eq_self (f := id) fun _ _ ↦ rfl]
    exact h.node? ha hnode

theorem Builds.walk_eq {a b : Arena} (h : a.Builds b) (ha : a.Sound) {root : Handle} {n : Header}
    (hroot : a.header? root = some n) (t : Trail) : b.walk root t = a.walk root t := by
  obtain ⟨⟨span, draft⟩, hnode⟩ := ha.exists_node? hroot
  have hwalk := (h.toExtends.relocates ha).walk ha (h.sound ha).descends hnode t
  rwa [Trail.map_id, Trail.map_id] at hwalk

theorem Builds.namesOf_eq {a b : Arena} (h : a.Builds b) (ha : a.Sound) {handles : Array Handle}
    (hhandles : ∀ node ∈ handles, ∃ symbol, a.shape? node = some (.identifier symbol)) :
    b.namesOf handles = a.namesOf handles := by
  refine List.filterMap_congr fun node hnode ↦ ?_
  obtain ⟨symbol, hs⟩ := hhandles node (Array.mem_toList_iff.1 hnode)
  exact ((h.toExtends.relocates ha).name?_and_span? hs).1

/-- Edits that take no nodes away change no answer that an arena gave about one of its nodes: a walk
goes on along every trail as it did, with the same reports, and collects the same identifiers with
the same names. This holds also if new nodes have old ones as children, and if they stand where
children were refused. -/
theorem answers_unchanged {a : Arena} (ha : a.Reachable) {later : List Edit}
    (hlater : ∀ e ∈ later, e ≠ .clear) {root : Handle} (hroot : (a.header? root).isSome) :
    (∀ t, (Edit.arenaAfter a later).walk root t = a.walk root t) ∧
      (∀ into, (Edit.arenaAfter a later).boundInto root into = a.boundInto root into) ∧
      (Edit.arenaAfter a later).bound root = a.bound root ∧
      (Edit.arenaAfter a later).boundNames root = a.boundNames root := by
  obtain ⟨n, hn⟩ := Option.isSome_iff_exists.1 hroot
  have hbuilds : a.Builds (Edit.arenaAfter a later) := Edit.builds_applyAll hlater { arena := a }
  have hwalk := hbuilds.walk_eq ha.sound hn
  have hinto : ∀ into, (Edit.arenaAfter a later).boundInto root into = a.boundInto root into :=
    fun into ↦ by rw [boundInto, boundInto, hwalk]
  refine ⟨hwalk, hinto, hinto #[], ?_⟩
  have hbound := bound_of_header? ha.sound.descends hn
  have hnames : (Edit.arenaAfter a later).namesOf (a.bindersOf root).toArray =
      a.namesOf (a.bindersOf root).toArray := by
    refine hbuilds.namesOf_eq ha.sound fun node hnode ↦ ?_
    exact exists_symbol_of_mem_bindersOf ha.sound.descends (by simpa using hnode)
  rw [boundNames, boundNames, bound, hinto #[], ← bound, hbound]
  exact congrArg Except.ok hnames

/-- An identifier and an array pattern with a child that is not there yet. -/
def forwardArena : Arena :=
  Edit.arenaAfter {} [.add .nowhere (.identifier "a"),
    .add .nowhere (.arrayPattern [.ofNat 0, .ofNat 2])]

/-- Edits that put an identifier where the child was missing, and use the pattern and its element as
children of another. -/
def reusingEdits : List Edit :=
  [.add .nowhere (.identifier "b"),
    .pattern .arrayPattern .nowhere [.ofNat 1, .ofNat 0],
    .lower (.object [("type", "Identifier"), ("name", "a")])]

theorem answers_forwardArena :
    (Edit.arenaAfter forwardArena reusingEdits).size = 5 ∧
      (Edit.arenaAfter forwardArena reusingEdits).parent (.ofNat 0) = .ofNat 3 ∧
      (Edit.arenaAfter forwardArena reusingEdits).bound (.ofNat 1) = .ok #[.ofNat 0] ∧
      (Edit.arenaAfter forwardArena reusingEdits).boundNames (.ofNat 1) = .ok ["a"] := by
  have hreachable : forwardArena.Reachable := ⟨{}, _, .inl rfl, rfl⟩
  have hlater : ∀ e ∈ reusingEdits, e ≠ .clear := by simp [reusingEdits]
  have hroot : (forwardArena.header? (.ofNat 1)).isSome := by decide +kernel
  obtain ⟨-, -, hbound, hnames⟩ := answers_unchanged hreachable hlater hroot
  rw [hbound, hnames]
  exact ⟨by decide +kernel, by decide +kernel, by decide +kernel, by decide +kernel⟩

end Arena

end BoundNames

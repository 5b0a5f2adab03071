import BoundNames.Proofs.Visits

/-!
# Binding paths

A binding path leads from a node to an identifier that the node binds. Its steps are `Leads`, each
with the position it takes among the children of a node: from an array pattern to an element, from
an object pattern to the value of a property or to a rest element, from a rest element to an
argument that is none itself, from a binding with a default to its left side, from an import to a
specifier and from a specifier to its local name. Keys, defaults, imported names and sources are on
no path.

An arena may share nodes, so there can be many paths to one identifier. A walk collects an
identifier once for each path that leads to it, in the lexicographic order of the paths
(`walk_eq_ends_of_paths`): `routes` lists the paths with their ends (`mem_routes_iff`), in order
(`pairwise_routes`), and its ends are what a visit collects (`map_snd_routes`).
-/

set_option autoImplicit false
set_option relaxedAutoImplicit false

namespace BoundNames.Arena

/-- A binding path may go from a node to the next by taking a position. -/
inductive Leads (a : Arena) : Handle → Nat → Handle → Prop where
  /-- An array pattern leads to each of its elements. -/
  | element {node next : Handle} {elements : List Handle} {i : Nat}
    (hnode : a.shape? node = some (.arrayPattern elements)) (hnext : elements[i]? = some next) :
    Leads a node i next
  /-- An object pattern leads to the value of each entry that is a property. -/
  | value {node entry : Handle} {entries : List Handle} {data : Property} {i : Nat}
    (hnode : a.shape? node = some (.objectPattern entries)) (hentry : entries[i]? = some entry)
    (hdata : a.shape? entry = some (.property data)) : Leads a node i data.value
  /-- An object pattern leads to each entry that is a rest element. -/
  | restEntry {node entry argument : Handle} {entries : List Handle} {i : Nat}
    (hnode : a.shape? node = some (.objectPattern entries)) (hentry : entries[i]? = some entry)
    (hrest : a.shape? entry = some (.rest argument)) : Leads a node i entry
  /-- A rest element leads to its argument, unless that is a rest element. -/
  | argument {node next : Handle} (hnode : a.shape? node = some (.rest next))
    (hnext : ∀ inner, a.shape? next ≠ some (.rest inner)) : Leads a node 0 next
  /-- A binding with a default leads to its left side. -/
  | left {node : Handle} {data : Assignment} (hnode : a.shape? node = some (.assignment data)) :
    Leads a node 0 data.left
  /-- An import leads to each of its specifiers. -/
  | specifier {node next : Handle} {data : Import} {i : Nat}
    (hnode : a.shape? node = some (.importing data)) (hnext : data.specifiers[i]? = some next) :
    Leads a node i next
  /-- A specifier leads to its local name. -/
  | localName {node : Handle} {form : SpecifierForm} {data : Specifier}
    (hnode : a.shape? node = some (.specifier form data)) : Leads a node 0 data.localName

/-- The positions that a path takes from a node to an identifier. -/
inductive BindingPath (a : Arena) : Handle → List Nat → Handle → Prop where
  | here {node : Handle} {symbol : Symbol} (hnode : a.shape? node = some (.identifier symbol)) :
    BindingPath a node [] node
  | step {node next target : Handle} {i : Nat} {path : List Nat} (first : a.Leads node i next)
    (others : BindingPath a next path target) : BindingPath a node (i :: path) target

/-! ### Where a node leads -/

/-- Whether a node is a rest element. -/
def isRest (a : Arena) (node : Handle) : Bool :=
  match a.shape? node with
  | some (.rest _) => true
  | _ => false

/-- Where an entry of an object pattern leads: to the value of a property, and to a rest element
itself. -/
def entryTarget? (a : Arena) (entry : Handle) : Option Handle :=
  match a.shape? entry with
  | some (.property data) => some data.value
  | some (.rest _) => some entry
  | _ => none

/-- Where each position of a node leads, if anywhere. -/
def targets (a : Arena) (node : Handle) : List (Option Handle) :=
  match a.shape? node with
  | some (.arrayPattern elements) => elements.map some
  | some (.objectPattern entries) => entries.map a.entryTarget?
  | some (.rest argument) => [if a.isRest argument then none else some argument]
  | some (.assignment data) => [some data.left]
  | some (.importing data) => data.specifiers.map some
  | some (.specifier _ data) => [some data.localName]
  | _ => []

theorem isRest_eq_true_iff {a : Arena} {node : Handle} :
    a.isRest node = true ↔ ∃ argument, a.shape? node = some (.rest argument) := by
  unfold isRest
  split
  · next argument h => simp [h]
  · next h => simpa using h

theorem leads_iff {a : Arena} {node next : Handle} {i : Nat} :
    a.Leads node i next ↔ (a.targets node)[i]? = some (some next) := by
  constructor
  · intro h
    cases h with
    | element hnode hnext => simp [targets, hnode, hnext]
    | value hnode hentry hdata => simp [targets, hnode, hentry, entryTarget?, hdata]
    | restEntry hnode hentry hrest => simp [targets, hnode, hentry, entryTarget?, hrest]
    | argument hnode hnext =>
      have hrest : a.isRest next = false := by
        rw [← Bool.not_eq_true, isRest_eq_true_iff]
        exact fun ⟨inner, hinner⟩ ↦ hnext inner hinner
      simp [targets, hnode, hrest]
    | left hnode => simp [targets, hnode]
    | specifier hnode hnext => simp [targets, hnode, hnext]
    | localName hnode => simp [targets, hnode]
  · intro h
    unfold targets at h
    split at h
    · next elements hnode => exact .element hnode (by simpa using h)
    · next entries hnode =>
      obtain ⟨entry, hentry, htarget⟩ : ∃ entry, entries[i]? = some entry ∧
          a.entryTarget? entry = some next := by simpa using h
      unfold entryTarget? at htarget
      split at htarget
      · next data hdata =>
        obtain rfl := Option.some.inj htarget
        exact .value hnode hentry hdata
      · next argument hrest =>
        obtain rfl := Option.some.inj htarget
        exact .restEntry hnode hentry hrest
      · cases htarget
    · next argument hnode =>
      obtain ⟨rfl, hnot, rfl⟩ : i = 0 ∧ a.isRest argument = false ∧ argument = next := by
        simpa [List.getElem?_singleton] using h
      refine .argument hnode fun inner hinner ↦ ?_
      rw [isRest_eq_true_iff.2 ⟨inner, hinner⟩] at hnot
      cases hnot
    · next data hnode =>
      obtain ⟨rfl, rfl⟩ : i = 0 ∧ data.left = next := by simpa [List.getElem?_singleton] using h
      exact .left hnode
    · next data hnode => exact .specifier hnode (by simpa using h)
    · next form data hnode =>
      obtain ⟨rfl, rfl⟩ : i = 0 ∧ data.localName = next := by
        simpa [List.getElem?_singleton] using h
      exact .localName hnode
    · cases h

/-! ### What a visit collects, position by position

The steps of a visit collect what visits of children do, be those within a budget or without
one. -/

section Steps

variable {a : Arena} {visited : Handle → List Handle}

theorem steps_of_header?_eq_none {node : Handle} (hn : a.header? node = none) :
    a.steps node = [] := by
  simp [steps, subject?, hn]

theorem steps_eq_stepsAt {node : Handle} {n : Header} (hn : a.header? node = some n)
    (hrest : a.isRest node = false) : a.steps node = a.stepsAt node n := by
  have hnone : a.pools.rest? n = none := by
    rw [Option.eq_none_iff_forall_ne_some]
    intro argument hargument
    have hs : a.shape? node = some (.rest argument) := by
      rw [shape?, hn, Option.bind_some]
      exact (Pools.rest?_eq_some_iff _ _ _).1 hargument
    rw [isRest_eq_true_iff.2 ⟨argument, hs⟩] at hrest
    cases hrest
  simp [steps, subject?, hn, hnone]

/-- A rest element is visited as its argument is, unless that is a rest element, which binds
nothing. -/
theorem flatMap_steps_rest {node argument : Handle} (hs : a.shape? node = some (.rest argument)) :
    (a.steps node).flatMap (stepBinders visited) =
      if a.isRest argument then [] else (a.steps argument).flatMap (stepBinders visited) := by
  obtain ⟨n, hn, hshape⟩ := Option.bind_eq_some_iff.1 hs
  have hrest : a.pools.rest? n = some argument := (Pools.rest?_eq_some_iff _ _ _).2 hshape
  cases hm : a.header? argument with
  | none =>
    rw [steps_of_header?_eq_none hm, List.flatMap_nil, ite_self]
    simp [steps, subject?, hn, hrest, hm]
  | some m =>
    have hsteps : a.steps node = a.stepsAt argument m := by simp [steps, subject?, hn, hrest, hm]
    rw [hsteps]
    by_cases hinner : a.isRest argument = true
    · obtain ⟨inner, hinnerShape⟩ := isRest_eq_true_iff.1 hinner
      rw [shape?, hm, Option.bind_some] at hinnerShape
      simp [hinner, stepsAt, hinnerShape, stepBinders]
    · rw [if_neg hinner, steps_eq_stepsAt hm (Bool.not_eq_true _ ▸ hinner)]

theorem flatMap_steps_identifier {node : Handle} {symbol : Symbol}
    (hs : a.shape? node = some (.identifier symbol)) :
    (a.steps node).flatMap (stepBinders visited) = [node] := by
  obtain ⟨n, hn, hshape⟩ := Option.bind_eq_some_iff.1 hs
  rw [steps_eq_stepsAt hn (by simp [isRest, hs])]
  simp [stepsAt, hshape, stepBinders]

/-- An entry of an object pattern binds what is bound where it leads. -/
theorem flatMap_entrySteps (entry : Handle) :
    (a.entrySteps entry).flatMap (stepBinders visited) =
      (a.entryTarget? entry).elim [] visited := by
  cases hn : a.header? entry with
  | none => simp [entrySteps, entryTarget?, shape?, hn]
  | some n =>
    cases hs : a.pools.shape? n with
    | none => simp [entrySteps, entryTarget?, shape?, hn, hs, stepBinders]
    | some s => cases s <;> simp [entrySteps, entryTarget?, shape?, hn, hs, stepBinders]

/-- A hole binds nothing, so passing over holes makes no difference. -/
theorem flatMap_filter_holes {β : Type} {f : Handle → List β} (habsent : f .absent = [])
    (elements : List Handle) :
    (elements.filter fun element ↦ !element.isAbsent).flatMap f = elements.flatMap f := by
  induction elements with
  | nil => rfl
  | cons element others ih =>
    by_cases hhole : element = .absent
    · subst hhole
      rw [List.flatMap_cons, habsent, ← ih]
      rfl
    · have hkept : (!element.isAbsent) = true := by simp [Handle.isAbsent, hhole]
      rw [List.filter_cons, if_pos hkept, List.flatMap_cons, ih, List.flatMap_cons]

/-- A node that is neither an identifier nor a rest element binds what is bound where its positions
lead, in their order. -/
theorem flatMap_steps_eq_targets (habsent : visited .absent = []) {node : Handle}
    (hnode : ∀ symbol, a.shape? node ≠ some (.identifier symbol)) (hrest : a.isRest node = false) :
    (a.steps node).flatMap (stepBinders visited) =
      (a.targets node).flatMap fun target ↦ target.elim [] visited := by
  cases hn : a.header? node with
  | none =>
    have hs : a.shape? node = none := by rw [shape?, hn, Option.bind_none]
    simp [steps_of_header?_eq_none hn, targets, hs]
  | some n =>
    have hshape : a.shape? node = a.pools.shape? n := by rw [shape?, hn, Option.bind_some]
    rw [steps_eq_stepsAt hn hrest]
    unfold stepsAt targets
    rw [hshape]
    cases hs : a.pools.shape? n with
    | none => simp [stepBinders]
    | some s =>
      cases s with
      | identifier symbol => exact absurd (hshape.trans hs) (hnode symbol)
      | arrayPattern elements => simp [List.flatMap_map, stepBinders, flatMap_filter_holes habsent]
      | objectPattern entries =>
        simp [List.flatMap_assoc, List.flatMap_map, flatMap_entrySteps]
      | rest argument => simp [isRest, hshape, hs] at hrest
      | importing data => simp [List.flatMap_map, stepBinders]
      | _ => simp [stepBinders]

end Steps

theorem bindersOf_of_header?_eq_none {a : Arena} (ha : a.Descends) {node : Handle}
    (hn : a.header? node = none) : a.bindersOf node = [] := by
  rw [bindersOf_eq_flatMap ha, steps_of_header?_eq_none hn, List.flatMap_nil]

theorem bindersOf_rest {a : Arena} (ha : a.Descends) {node argument : Handle}
    (hs : a.shape? node = some (.rest argument)) :
    a.bindersOf node = if a.isRest argument then [] else a.bindersOf argument := by
  rw [bindersOf_eq_flatMap ha, flatMap_steps_rest hs, ← bindersOf_eq_flatMap ha]

theorem bindersOf_identifier {a : Arena} (ha : a.Descends) {node : Handle} {symbol : Symbol}
    (hs : a.shape? node = some (.identifier symbol)) : a.bindersOf node = [node] := by
  rw [bindersOf_eq_flatMap ha, flatMap_steps_identifier hs]

/-- A node that is no identifier binds what is bound where its positions lead, in their order. -/
theorem bindersOf_eq_targets {a : Arena} (ha : a.Descends) {node : Handle}
    (hnode : ∀ symbol, a.shape? node ≠ some (.identifier symbol)) :
    a.bindersOf node = (a.targets node).flatMap fun target ↦ target.elim [] a.bindersOf := by
  by_cases hrest : a.isRest node = true
  · obtain ⟨argument, hs⟩ := isRest_eq_true_iff.1 hrest
    rw [bindersOf_rest ha hs]
    by_cases hinner : a.isRest argument = true <;> simp [targets, hs, hinner]
  · rw [bindersOf_eq_flatMap ha, flatMap_steps_eq_targets
      (bindersOf_of_header?_eq_none ha a.header?_absent) hnode (Bool.not_eq_true _ ▸ hrest)]

/-! ### The paths in their order -/

/-- The binding paths from a node with their ends, in order, paths beyond the budget left out. -/
def routes (a : Arena) : Nat → Handle → List (List Nat × Handle)
  | 0, _ => []
  | budget + 1, node =>
    match a.shape? node with
    | some (.identifier _) => [([], node)]
    | _ => (a.targets node).zipIdx.flatMap fun (target, i) ↦
      target.elim [] fun next ↦ (a.routes budget next).map fun (path, ending) ↦ (i :: path, ending)

theorem routes_identifier {a : Arena} {budget : Nat} {node : Handle} {symbol : Symbol}
    (hs : a.shape? node = some (.identifier symbol)) :
    a.routes (budget + 1) node = [([], node)] := by
  simp [routes, hs]

theorem routes_of_ne {a : Arena} {budget : Nat} {node : Handle}
    (hnode : ∀ symbol, a.shape? node ≠ some (.identifier symbol)) :
    a.routes (budget + 1) node = (a.targets node).zipIdx.flatMap fun (target, i) ↦
      target.elim [] fun next ↦
        (a.routes budget next).map fun (path, ending) ↦ (i :: path, ending) := by
  rw [routes]
  split
  · next symbol hs => exact absurd hs (hnode symbol)
  · rfl

theorem height_lt_of_leads {a : Arena} (ha : a.Descends) {node next : Handle} {i : Nat}
    (h : a.Leads node i next) : a.height next < a.height node := by
  cases h with
  | element hnode hnext =>
    exact height_lt_of_mem_children ha hnode (List.mem_of_getElem? hnext)
  | value hnode hentry hdata =>
    exact Nat.lt_trans (height_lt_of_mem_children ha hdata (by simp [Shape.children]))
      (height_lt_of_mem_children ha hnode (List.mem_of_getElem? hentry))
  | restEntry hnode hentry hrest =>
    exact height_lt_of_mem_children ha hnode (List.mem_of_getElem? hentry)
  | argument hnode hnext => exact height_lt_of_mem_children ha hnode (by simp [Shape.children])
  | left hnode => exact height_lt_of_mem_children ha hnode (by simp [Shape.children])
  | specifier hnode hnext =>
    have hmem := List.mem_of_getElem? hnext
    exact height_lt_of_mem_children ha hnode (by simp [Shape.children, hmem])
  | localName hnode => exact height_lt_of_mem_children ha hnode (by simp [Shape.children])

/-- The ends of the paths from a node are the identifiers that a visit of it collects. -/
theorem map_snd_routes {a : Arena} (ha : a.Descends) (budget : Nat) :
    ∀ node, a.height node < budget → (a.routes budget node).map Prod.snd = a.bindersOf node := by
  induction budget with
  | zero => exact fun _ h ↦ absurd h (Nat.not_lt_zero _)
  | succ budget ih =>
    intro node hheight
    by_cases hnode : ∃ symbol, a.shape? node = some (.identifier symbol)
    · obtain ⟨symbol, hs⟩ := hnode
      rw [routes_identifier hs, bindersOf_identifier ha hs]
      rfl
    · rw [not_exists] at hnode
      have htargets : a.targets node = (a.targets node).zipIdx.map Prod.fst :=
        (List.zipIdx_map_fst _ _).symm
      rw [routes_of_ne hnode, bindersOf_eq_targets ha hnode, List.map_flatMap, htargets,
        List.flatMap_map, ← htargets]
      refine List.flatMap_congr fun ⟨target, i⟩ hmem ↦ ?_
      cases target with
      | none => rfl
      | some next =>
        have hleads : a.Leads node i next := leads_iff.2 (List.mem_zipIdx_iff_getElem?.1 hmem)
        have hlt := height_lt_of_leads ha hleads
        change ((a.routes budget next).map _).map Prod.snd = a.bindersOf next
        rw [List.map_map, ← ih next (by omega)]
        rfl

theorem mem_routes_iff {a : Arena} (ha : a.Descends) (budget : Nat) :
    ∀ node, a.height node < budget → ∀ path ending,
      (path, ending) ∈ a.routes budget node ↔ a.BindingPath node path ending := by
  induction budget with
  | zero => exact fun _ h ↦ absurd h (Nat.not_lt_zero _)
  | succ budget ih =>
    intro node hheight path ending
    by_cases hnode : ∃ symbol, a.shape? node = some (.identifier symbol)
    · obtain ⟨symbol, hs⟩ := hnode
      rw [routes_identifier hs, List.mem_singleton, Prod.mk.injEq]
      constructor
      · rintro ⟨rfl, rfl⟩
        exact .here hs
      · intro h
        cases h with
        | here _ => exact ⟨rfl, rfl⟩
        | step first _ => cases first <;> simp_all
    · rw [not_exists] at hnode
      rw [routes_of_ne hnode, List.mem_flatMap]
      constructor
      · rintro ⟨⟨target, i⟩, hmem, hroute⟩
        cases target with
        | none => cases hroute
        | some next =>
          have hleads : a.Leads node i next := leads_iff.2 (List.mem_zipIdx_iff_getElem?.1 hmem)
          have hlt := height_lt_of_leads ha hleads
          obtain ⟨⟨others, last⟩, hothers, heq⟩ := List.mem_map.1 hroute
          obtain ⟨rfl, rfl⟩ := Prod.mk.inj heq
          exact .step hleads ((ih next (by omega) others last).1 hothers)
      · intro h
        cases h with
        | here hs => exact absurd hs (hnode _)
        | step first others =>
          have hlt := height_lt_of_leads ha first
          refine ⟨(some _, _), List.mem_zipIdx_iff_getElem?.2 (leads_iff.1 first), ?_⟩
          exact List.mem_map.2 ⟨_, (ih _ (by omega) _ _).2 others, rfl⟩

theorem pairwise_routes (a : Arena) (budget : Nat) :
    ∀ node, (a.routes budget node).Pairwise fun p q ↦ List.Lex (· < ·) p.1 q.1 := by
  induction budget with
  | zero => exact fun _ ↦ List.Pairwise.nil
  | succ budget ih =>
    intro node
    by_cases hnode : ∃ symbol, a.shape? node = some (.identifier symbol)
    · obtain ⟨symbol, hs⟩ := hnode
      rw [routes_identifier hs]
      exact List.pairwise_singleton _ _
    · rw [not_exists] at hnode
      rw [routes_of_ne hnode, List.pairwise_flatMap]
      constructor
      · -- Paths by one position are in the order of the paths from where it leads.
        rintro ⟨target, i⟩ -
        cases target with
        | none => exact List.Pairwise.nil
        | some next => exact List.pairwise_map.2 ((ih next).imp fun h ↦ List.Lex.cons h)
      · -- Paths by an earlier position come before those by a later one.
        have hpositions : (a.targets node).zipIdx.Pairwise fun x y ↦ x.2 < y.2 := by
          rw [← List.pairwise_map (f := Prod.snd), List.zipIdx_map_snd]
          exact List.pairwise_lt_range'
        refine hpositions.imp ?_
        rintro ⟨target, i⟩ ⟨target', j⟩ hij p hp q hq
        cases target with
        | none => cases hp
        | some next =>
          cases target' with
          | none => cases hq
          | some next' =>
            obtain ⟨p', -, rfl⟩ := List.mem_map.1 hp
            obtain ⟨q', -, rfl⟩ := List.mem_map.1 hq
            exact List.Lex.rel hij

theorem mem_bindersOf_iff {a : Arena} (ha : a.Descends) {node ending : Handle} :
    ending ∈ a.bindersOf node ↔ ∃ path, a.BindingPath node path ending := by
  have hheight : a.height node < a.height node + 1 := Nat.lt_succ_self _
  rw [← map_snd_routes ha _ node hheight]
  simp only [List.mem_map, Prod.exists, exists_eq_right, mem_routes_iff ha _ node hheight]

/-- What a visit collects are identifiers. -/
theorem exists_symbol_of_mem_bindersOf {a : Arena} (ha : a.Descends) {node ending : Handle}
    (h : ending ∈ a.bindersOf node) : ∃ symbol, a.shape? ending = some (.identifier symbol) := by
  obtain ⟨path, hpath⟩ := (mem_bindersOf_iff ha).1 h
  induction hpath with
  | here hnode => exact ⟨_, hnode⟩
  | step _ others ih => exact ih ((mem_bindersOf_iff ha).2 ⟨_, others⟩)

/-- A walk from a node of a reachable arena collects the end of each binding path from the node,
once for each path and in the lexicographic order of the paths, however the nodes are shared. So it
collects an identifier if and only if some path leads to it. -/
theorem walk_eq_ends_of_paths {a : Arena} (ha : a.Reachable) {root : Handle}
    (hroot : (a.header? root).isSome) (t : Trail) :
    (a.walk root t).1 = .ok () ∧
      ∃ routes : List (List Nat × Handle),
        (a.walk root t).2.found.toList = t.found.toList ++ routes.map Prod.snd ∧
          (routes.map Prod.fst).Pairwise (List.Lex (· < ·)) ∧
          (∀ path ending, (path, ending) ∈ routes ↔ a.BindingPath root path ending) ∧
          ∀ ending, ending ∈ routes.map Prod.snd ↔ ∃ path, a.BindingPath root path ending := by
  have hdescends := ha.sound.descends
  obtain ⟨n, hn⟩ := Option.isSome_iff_exists.1 hroot
  obtain ⟨hok, hfound⟩ := walk_of_header? hdescends hn t
  have hheight : a.height root < a.height root + 1 := Nat.lt_succ_self _
  have hmem := mem_routes_iff hdescends _ root hheight
  refine ⟨hok, a.routes (a.height root + 1) root, ?_, ?_, hmem, ?_⟩
  · rw [hfound, map_snd_routes hdescends _ root hheight]
  · exact List.pairwise_map.2 (a.pairwise_routes _ root)
  · intro ending
    simp only [List.mem_map, Prod.exists, exists_eq_right, hmem]

/-- An identifier that stands twice in one array pattern, with a hole between. -/
def sharedArena : Arena :=
  Edit.arenaAfter {} [.add .nowhere (.identifier "a"),
    .add .nowhere (.arrayPattern [.ofNat 0, .absent, .ofNat 0])]

theorem walk_sharedArena :
    (sharedArena.walk (.ofNat 1) {}).2.found = #[.ofNat 0, .ofNat 0] ∧
      ∃ routes : List (List Nat × Handle), routes.map Prod.snd = [.ofNat 0, .ofNat 0] ∧
        (routes.map Prod.fst).Pairwise (List.Lex (· < ·)) ∧
        ∀ path ending,
          (path, ending) ∈ routes ↔ sharedArena.BindingPath (.ofNat 1) path ending := by
  have hfound : (sharedArena.walk (.ofNat 1) {}).2.found = #[.ofNat 0, .ofNat 0] := by
    decide +kernel
  have hreachable : sharedArena.Reachable := ⟨{}, _, .inl rfl, rfl⟩
  have hroot : (sharedArena.header? (.ofNat 1)).isSome := by decide +kernel
  obtain ⟨-, routes, hroutes, hordered, hpaths, -⟩ := walk_eq_ends_of_paths hreachable hroot {}
  rw [hfound] at hroutes
  exact ⟨hfound, routes, hroutes.symm, hordered, hpaths⟩

end BoundNames.Arena

import BoundNames.Proofs.Correspondence
import BoundNames.Proofs.Extraction

/-!
# Holes and children that are missing

A `null` in a list of nodes leaves a hole, and a field that is `null` is a child that is missing.
Neither makes a node, a report or a parent, so it makes no difference to any of these how many holes
a list has, and whether a missing child has a field or not. All that differs is the lists of
children themselves, and those by their holes alone: `Arena.withoutHoles` leaves the holes out of
the lists of an arena and nothing else, and the arenas of two values that differ by holes and
missing children are the same without their holes (`tree_eq_of_opens`). Lowering shows this by a
simulation in which two sessions are related if they are the same without their holes
(`simulation_withoutHoles`).

A walk passes over the holes of array patterns, finds no entry in a hole of an object pattern, and
visits a hole of an import to no effect. So it collects and reports the same in an arena and in the
arena without its holes (`Arena.walk_withoutHoles`), and the handles that are extracted are the same
(`identifiers_eq_of_opens`).
-/

set_option autoImplicit false
set_option relaxedAutoImplicit false

namespace BoundNames

/-- The children of a list that are not holes. -/
def Handle.present (children : List Handle) : List Handle :=
  children.filter fun child ↦ !child.isAbsent

namespace Handle

theorem present_cons_absent (children : List Handle) :
    present (absent :: children) = present children := rfl

theorem present_cons_of_ne {child : Handle} (h : child ≠ absent) (children : List Handle) :
    present (child :: children) = child :: present children :=
  List.filter_cons_of_pos (by simp [isAbsent, h])

/-- Lists that are the same without holes stay so with the same child in front. -/
theorem present_cons_congr (child : Handle) {children others : List Handle}
    (h : present children = present others) :
    present (child :: children) = present (child :: others) := by
  by_cases hchild : child = absent
  · rw [hchild, present_cons_absent, present_cons_absent, h]
  · rw [present_cons_of_ne hchild, present_cons_of_ne hchild, h]

theorem present_present (children : List Handle) : present (present children) = present children :=
  List.filter_filter.trans (List.filter_congr fun _ _ ↦ Bool.and_self _)

/-- Holes make no difference to what is left of a list after a map that keeps them. -/
theorem present_map {f : Handle → Handle} (hf : f absent = absent) (children : List Handle) :
    present (children.map f) = present ((present children).map f) := by
  induction children with
  | nil => rfl
  | cons child others ih =>
    by_cases hchild : child = absent
    · rw [hchild, List.map_cons, hf, present_cons_absent, present_cons_absent, ih]
    · rw [present_cons_of_ne hchild]
      exact present_cons_congr (f child) ih

end Handle

/-! ### Without holes -/

open Handle (present present_present present_map)

namespace Shape

variable {Name : Type}

/-- The shape without the holes in its lists. A child that is missing is no hole. -/
def withoutHoles : Shape Name → Shape Name
  | arrayPattern elements => arrayPattern (present elements)
  | objectPattern entries => objectPattern (present entries)
  | importing data => importing { data with specifiers := present data.specifiers }
  | s => s

theorem kind_withoutHoles (s : Shape Name) : s.withoutHoles.kind = s.kind := by
  cases s <;> rfl

theorem present_children_withoutHoles (s : Shape Name) :
    present s.withoutHoles.children = present s.children := by
  cases s with
  | arrayPattern elements => exact present_present elements
  | objectPattern entries => exact present_present entries
  | importing data =>
    have happend : ∀ l : List Handle, present (l ++ [data.source]) =
        present l ++ present [data.source] := fun l ↦ List.filter_append _ _
    rw [withoutHoles, children, children, happend, happend, present_present]
  | _ => rfl

theorem withoutHoles_mapChildren {f : Handle → Handle} (hf : f .absent = .absent)
    (s : Shape Name) :
    (s.mapChildren f).withoutHoles = (s.withoutHoles.mapChildren f).withoutHoles := by
  cases s with
  | arrayPattern elements => exact congrArg arrayPattern (present_map hf elements)
  | objectPattern entries => exact congrArg objectPattern (present_map hf entries)
  | importing data =>
    exact congrArg (fun specifiers ↦ importing ⟨specifiers, f data.source⟩)
      (present_map hf data.specifiers)
  | _ => rfl

end Shape

theorem Draft.withoutHoles_intern (draft : Draft) (symbols : SymbolTable) :
    (Draft.intern draft symbols).1.withoutHoles = (Draft.intern draft.withoutHoles symbols).1 ∧
      (Draft.intern draft symbols).2 = (Draft.intern draft.withoutHoles symbols).2 := by
  cases draft <;> exact ⟨rfl, rfl⟩

namespace Pools

/-- The pools without the holes in the lists of patterns and imports. -/
def withoutHoles (p : Pools) : Pools :=
  { p with
    patterns := p.patterns.map present
    imports := p.imports.map fun data ↦ { data with specifiers := present data.specifiers } }

theorem count_withoutHoles (p : Pools) (f : Family) : p.withoutHoles.count f = p.count f := by
  cases f <;> simp [withoutHoles, count]

theorem withoutHoles_insert (p : Pools) (s : Shape Symbol) :
    (p.insert s).2.withoutHoles = (p.withoutHoles.insert s.withoutHoles).2 := by
  cases s <;> simp [insert, withoutHoles, Shape.withoutHoles]

theorem shape?_withoutHoles (p : Pools) (n : Header) :
    p.withoutHoles.shape? n = (p.shape? n).map Shape.withoutHoles := by
  have hpayload : ∀ k i, p.withoutHoles.payload? k i =
      (p.payload? k i).map Shape.withoutHoles := by
    intro k i
    cases k <;> simp [payload?, withoutHoles, Shape.withoutHoles, Function.comp_def]
  rw [shape?_eq_payload?, shape?_eq_payload?, hpayload]
  split <;> rfl

end Pools

namespace Arena

/-- The arena without the holes in the lists of patterns and imports. -/
def withoutHoles (a : Arena) : Arena :=
  { a with pools := a.pools.withoutHoles }

/-! ### Additions -/

theorem foldl_adopt_present (node : Handle) (children : List Handle) (parents : Array Handle) :
    (present children).foldl (adopt node) parents = children.foldl (adopt node) parents := by
  induction children generalizing parents with
  | nil => rfl
  | cons child others ih =>
    by_cases hchild : child = .absent
    · rw [hchild, Handle.present_cons_absent, List.foldl_cons, ih]
      rfl
    · rw [Handle.present_cons_of_ne hchild, List.foldl_cons, List.foldl_cons]
      exact ih _

theorem refused_withoutHoles (a : Arena) (draft : Draft) :
    a.refused draft = a.refused draft.withoutHoles := by
  have hpresent : ∀ children : List Handle, (present children).filter (fun c ↦ !a.admits c) =
      children.filter fun c ↦ !a.admits c := by
    intro children
    rw [present, List.filter_filter]
    refine List.filter_congr fun child _ ↦ ?_
    cases hchild : child.isAbsent <;> simp [admits, hchild]
  rw [refused, refused, ← hpresent, ← hpresent draft.withoutHoles.children,
    Shape.present_children_withoutHoles]

section Additions

variable {a b : Arena} {draft other : Draft} (harena : a.withoutHoles = b.withoutHoles)
  (hdraft : draft.withoutHoles = other.withoutHoles)

include harena

theorem size_eq_of_withoutHoles : a.size = b.size :=
  congrArg (fun c ↦ c.headers.size) harena

include hdraft

theorem mapChildren_keep_withoutHoles_eq :
    (draft.mapChildren a.keep).withoutHoles = (other.mapChildren b.keep).withoutHoles := by
  have hkeep : a.keep = b.keep := by
    funext child
    rw [keep, keep, admits, admits, size_eq_of_withoutHoles harena]
  rw [Shape.withoutHoles_mapChildren rfl, hdraft, hkeep, ← Shape.withoutHoles_mapChildren rfl]

/-- Additions of drafts that are the same without their holes lead from arenas that are the same
without theirs to such arenas, with the same node and the same refusals. -/
theorem add_withoutHoles_eq (span : Span) :
    (a.add span draft).1 = (b.add span other).1 ∧
      (a.add span draft).2.withoutHoles = (b.add span other).2.withoutHoles ∧
      a.refused draft = b.refused other := by
  have hsize := size_eq_of_withoutHoles harena
  have hkept := mapChildren_keep_withoutHoles_eq harena hdraft
  have hnames : a.symbols = b.symbols := congrArg (fun c ↦ c.symbols) harena
  have hstored : (a.stored draft).withoutHoles = (b.stored other).withoutHoles := by
    rw [stored, stored, (Draft.withoutHoles_intern _ _).1, (Draft.withoutHoles_intern _ _).1, hkept,
      hnames]
  have hkind : draft.kind = other.kind := by
    rw [← Shape.kind_withoutHoles draft, hdraft, Shape.kind_withoutHoles]
  have hpools : a.pools.withoutHoles = b.pools.withoutHoles := congrArg (fun c ↦ c.pools) harena
  have hheaders : (a.add span draft).2.headers = (b.add span other).2.headers := by
    have hold : a.headers = b.headers := congrArg (fun c ↦ c.headers) harena
    rw [headers_add, headers_add, hold, hkind, ← Pools.count_withoutHoles a.pools, hpools,
      Pools.count_withoutHoles]
  have hparents : (a.add span draft).2.parents = (b.add span other).2.parents := by
    have hold : a.parents = b.parents := congrArg (fun c ↦ c.parents) harena
    rw [parents_add, parents_add, hold, hsize, ← foldl_adopt_present,
      ← Shape.present_children_withoutHoles, hstored, Shape.present_children_withoutHoles,
      foldl_adopt_present]
  have hsymbols : (a.add span draft).2.symbols = (b.add span other).2.symbols := by
    rw [symbols_add, symbols_add, (Draft.withoutHoles_intern _ _).2, hkept, hnames,
      ← (Draft.withoutHoles_intern _ _).2]
  have hinsert : (a.add span draft).2.pools.withoutHoles =
      (b.add span other).2.pools.withoutHoles := by
    rw [pools_add, pools_add, Pools.withoutHoles_insert, Pools.withoutHoles_insert, hpools, hstored]
  refine ⟨?_, ?_, ?_⟩
  · rw [fst_add, fst_add, hsize]
  · rw [withoutHoles, withoutHoles, hheaders, hparents, hsymbols, hinsert]
  · rw [refused_withoutHoles, hdraft, ← refused_withoutHoles, refused, refused]
    simp only [admits, hsize]

end Additions

end Arena

/-! ### Walks -/

/-- Whether a step is a visit of no node. -/
def Step.isIdle : Step → Bool
  | visit child => child.isAbsent
  | _ => false

namespace Arena

/-- Steps to no effect may be left out of a row of steps. -/
theorem foldlM_filter_idle {f : Trail → Step → Option Trail}
    (hidle : ∀ t, f t (.visit .absent) = some t) (steps : List Step) :
    ∀ t, (steps.filter fun step ↦ !step.isIdle).foldlM f t = steps.foldlM f t := by
  induction steps with
  | nil => exact fun _ ↦ rfl
  | cons step others ih =>
    intro t
    cases hstep : step.isIdle with
    | true =>
      obtain rfl : step = .visit .absent := by
        cases step with
        | visit child => rw [Handle.isAbsent_iff.1 hstep]
        | bind _ => cases hstep
        | report _ => cases hstep
      rw [List.foldlM_cons, hidle]
      exact ih t
    | false =>
      rw [List.filter_cons_of_pos (by rw [hstep]; rfl), List.foldlM_cons, List.foldlM_cons]
      exact congrArg (f t step).bind (funext ih)

theorem foldlM_congr_of_mem {f g : Trail → Step → Option Trail} {steps : List Step}
    (h : ∀ step ∈ steps, ∀ t, f t step = g t step) :
    ∀ t, steps.foldlM f t = steps.foldlM g t := by
  induction steps with
  | nil => exact fun _ ↦ rfl
  | cons step others ih =>
    intro t
    have hothers := ih fun step hmem ↦ h step (List.mem_cons_of_mem _ hmem)
    rw [List.foldlM_cons, List.foldlM_cons, h step List.mem_cons_self]
    exact congrArg (g t step).bind (funext hothers)

theorem filter_idle_map_visit (children : List Handle) :
    (children.map Step.visit).filter (fun step ↦ !step.isIdle) =
      (present children).map Step.visit :=
  List.filter_map

variable (a : Arena)

theorem entrySteps_withoutHoles (entry : Handle) :
    a.withoutHoles.entrySteps entry = a.entrySteps entry := by
  have hheader : a.withoutHoles.header? entry = a.header? entry := rfl
  unfold entrySteps
  rw [hheader]
  cases a.header? entry with
  | none => rfl
  | some n =>
    have hshape : a.withoutHoles.pools.shape? n = _ := a.pools.shape?_withoutHoles n
    dsimp only
    rw [hshape]
    cases a.pools.shape? n with
    | none => rfl
    | some s => cases s <;> rfl

/-- At a node the arena without holes takes the same steps, visits of holes left out. -/
theorem stepsAt_withoutHoles (node : Handle) (n : Header) :
    (a.withoutHoles.stepsAt node n).filter (fun step ↦ !step.isIdle) =
      (a.stepsAt node n).filter fun step ↦ !step.isIdle := by
  have hshape : a.withoutHoles.pools.shape? n = _ := a.pools.shape?_withoutHoles n
  unfold stepsAt
  rw [hshape]
  cases a.pools.shape? n with
  | none => rfl
  | some s =>
    cases s with
    | arrayPattern elements =>
      have hholes := congrArg (List.map Step.visit) (present_present elements)
      exact congrArg (List.filter _) hholes
    | objectPattern entries =>
      have hentries : a.withoutHoles.entrySteps = a.entrySteps := funext a.entrySteps_withoutHoles
      have hholes := flatMap_filter_holes (f := a.entrySteps) rfl entries
      simp only [Option.map_some, Shape.withoutHoles, hentries]
      exact congrArg (List.filter _) hholes
    | importing data =>
      simp only [Option.map_some, Shape.withoutHoles, filter_idle_map_visit, present_present]
    | _ => rfl

theorem steps_withoutHoles (node : Handle) :
    (a.withoutHoles.steps node).filter (fun step ↦ !step.isIdle) =
      (a.steps node).filter fun step ↦ !step.isIdle := by
  have hsubject : a.withoutHoles.subject? node = a.subject? node := rfl
  unfold steps
  rw [hsubject]
  cases a.subject? node with
  | none => rfl
  | some x => exact a.stepsAt_withoutHoles x.1 x.2

variable {a}

/-- A visit within a budget above its height is the same without holes. -/
theorem visit_withoutHoles (ha : a.Descends) (budget : Nat) :
    ∀ node t, a.height node < budget →
      a.withoutHoles.visit budget node t = a.visit budget node t := by
  induction budget with
  | zero => exact fun _ _ h ↦ absurd h (Nat.not_lt_zero _)
  | succ budget ih =>
    intro node t hheight
    have hheader : a.withoutHoles.header? node = a.header? node := rfl
    rw [visit, visit]
    cases budget with
    | zero =>
      -- Only a handle of no node is as low as that, and it takes no steps at all.
      have hnone : a.header? node = none := by
        rw [← Option.not_isSome_iff_eq_none]
        intro hsome
        simp [height, hsome] at hheight
      rw [steps_of_header?_eq_none hnone, steps_of_header?_eq_none (hheader.trans hnone)]
      rfl
    | succ budget =>
      rw [← foldlM_filter_idle (fun _ ↦ rfl), steps_withoutHoles,
        ← foldlM_filter_idle (fun _ ↦ rfl) (a.steps node)]
      refine foldlM_congr_of_mem (fun step hstep t ↦ ?_) t
      cases step with
      | bind identifier => rfl
      | visit child =>
        have hlt := height_lt_of_visit_mem_steps ha (List.mem_filter.1 hstep).1
        exact ih child t (by omega)
      | report e => rfl

/-- A walk collects and reports the same without holes. -/
theorem walk_withoutHoles (ha : a.Descends) (root : Handle) (t : Trail) :
    a.withoutHoles.walk root t = a.walk root t := by
  have hcheck : a.withoutHoles.checkRoot root = a.checkRoot root := rfl
  have hvisit : a.withoutHoles.visit (a.withoutHoles.size + 1) root (t.report (.walking root)) =
      a.visit (a.size + 1) root (t.report (.walking root)) :=
    visit_withoutHoles ha (a.size + 1) root _ (Nat.lt_succ_of_le (a.height_le_size root))
  rw [walk, walk, hcheck, hvisit]

end Arena

/-! ### Lowering -/

namespace Lowering

/-- The sessions are the same without the holes of their arenas. -/
def SameButHoles (s s' : Session) : Prop :=
  s.arena.withoutHoles = s'.arena.withoutHoles ∧ s.events = s'.events

/-- The lists are the same without their holes. -/
def SamePresent (children others : List Handle) : Prop :=
  present children = present others

theorem related_add (span : Span) {draft other : Draft}
    (h : draft.withoutHoles = other.withoutHoles) :
    Related SameButHoles Eq (Session.add span draft) (Session.add span other) := by
  intro s s' hs
  obtain ⟨hnode, harena, hrefused⟩ := Arena.add_withoutHoles_eq hs.1 h span
  have hsize := Arena.size_eq_of_withoutHoles hs.1
  refine ⟨hnode, harena, ?_⟩
  simp only [Session.add, hrefused, hsize, hs.2]

/-- Sessions that are the same without holes stay so, also if lists that are the same without holes
are added. -/
theorem simulation_withoutHoles : Simulation SameButHoles SamePresent where
  nil := rfl
  cons child _ _ h := Handle.present_cons_congr child h
  report e s s' hs := by
    refine ⟨rfl, hs.1, ?_⟩
    exact congrArg (fun events ↦ events.push e) hs.2
  add span draft := related_add span rfl
  addArray span _ _ h := related_add span (congrArg Shape.arrayPattern h)
  addObject span _ _ h := related_add span (congrArg Shape.objectPattern h)
  addImport span _ _ h source :=
    related_add span (congrArg (fun specifiers ↦ Shape.importing ⟨specifiers, source⟩) h)

/-- One `null` more in a list is one hole more among the children. -/
theorem lowerItems_null (others : List Json) :
    Related SameButHoles SamePresent (lowerItems others) (lowerItems (.null :: others)) :=
  fun s s' hs ↦ lowerItems_related simulation_withoutHoles others s s' hs

end Lowering

/-! ### Values -/

namespace Json

open Lowering (Corresponds SameButHoles SamePresent simulation_withoutHoles)

/-- One more hole or one more field for a child that is missing: a `null` is put into the list in a
field, or into an object as a field that was not there, in the value itself, within one of its
fields or within one of its items. Left out are the places that are read in another way, a field
that is written out and the list of the offsets of a span. -/
inductive Opens : Json → Json → Prop where
  | hole (before after : List (String × Json)) (key : String) (items others : List Json)
    (hvalue : key = "value" →
      ¬ WritesValue (before ++ (key, array (items ++ others)) :: after)) (hrange : key ≠ "range") :
    Opens (object (before ++ (key, array (items ++ others)) :: after))
      (object (before ++ (key, array (items ++ null :: others)) :: after))
  | child (before after : List (String × Json)) (key : String)
    (hvalue : key = "value" → ¬ WritesValue (before ++ after))
    (hnone : field? key (before ++ after) = none) :
    Opens (object (before ++ after)) (object (before ++ (key, null) :: after))
  | within (before after : List (String × Json)) (key : String) {v w : Json}
    (hvalue : key = "value" → ¬ WritesValue (before ++ (key, v) :: after)) (h : Opens v w) :
    Opens (object (before ++ (key, v) :: after)) (object (before ++ (key, w) :: after))
  | item (before after : List Json) {v w : Json} (h : Opens v w) :
    Opens (array (before ++ v :: after)) (array (before ++ w :: after))

/-- A field that is `null` is read and lowered as one that is not there. -/
theorem corresponds_child {before after : List (String × Json)} {key : String}
    (hvalue : key = "value" → ¬ WritesValue (before ++ after))
    (hnone : field? key (before ++ after) = none) :
    Corresponds SameButHoles SamePresent (object (before ++ after))
      (object (before ++ (key, null) :: after)) := by
  have hself : field? key (before ++ (key, null) :: after) = some null := by
    rw [field?_append, Option.or_eq_none_iff] at hnone
    rw [field?_append, hnone.1, Option.none_or, field?, if_pos rfl]
  have hothers : ∀ other, other ≠ key →
      field? other (before ++ (key, null) :: after) = field? other (before ++ after) := by
    intro other hother
    rw [field?_append, field?_append, field?, if_neg hother.symm]
  refine Lowering.corresponds_object simulation_withoutHoles hothers ?_ (fun _ ↦ ?_) hvalue ?_ ?_
  · rw [hnone, hself]
    rfl
  · rw [hnone, hself]
    rfl
  · rw [Lowering.lowerField_eq_elim, Lowering.lowerField_eq_elim, hnone, hself]
    exact .pure rfl
  · rw [Lowering.lowerList_eq_elim, Lowering.lowerList_eq_elim, hnone, hself]
    exact .pure rfl

theorem Opens.corresponds {v w : Json} (h : Opens v w) :
    Corresponds SameButHoles SamePresent v w := by
  induction h with
  | hole before after key items others hvalue hrange =>
    have hlist := Lowering.lowerItems_append simulation_withoutHoles items
      (Lowering.lowerItems_null others)
    -- In the place of one child a list is no node, whatever its items are.
    have hchild := (simulation_withoutHoles.report (.notNode "array")).bind_eq fun _ ↦
      simulation_withoutHoles.add .nowhere (.foreign "")
    exact Lowering.corresponds_replace simulation_withoutHoles before after hvalue rfl
      (fun hkey ↦ absurd hkey hrange) hchild hlist
  | child before after key hvalue hnone => exact corresponds_child hvalue hnone
  | within before after key hvalue _ ih =>
    exact ih.within simulation_withoutHoles before after key hvalue
  | item before after _ ih => exact ih.item simulation_withoutHoles before after

end Json

namespace Extraction

open Lowering (rootType lower)

/-- The trees of values that differ by holes and missing children are rejected for the same cause,
or they have the same root in arenas that are the same without their holes. -/
theorem tree_eq_of_opens {v w : Json} (h : Relation.EqvGen Json.Opens v w) :
    (tree v).value.map (Prod.map Arena.withoutHoles id) =
        (tree w).value.map (Prod.map Arena.withoutHoles id) ∧
      (tree v).events = (tree w).events := by
  induction h with
  | rel v w hopens =>
    have hcorresponds := hopens.corresponds
    obtain ⟨hroot, harena, hevents⟩ := hcorresponds.node { arena := .prepared } _ ⟨rfl, rfl⟩
    have hsize := Arena.size_eq_of_withoutHoles harena
    have htype := hcorresponds.rootType
    cases hw : rootType w with
    | error e =>
      rw [tree, tree, htype, hw]
      exact ⟨rfl, rfl⟩
    | ok type =>
      have hv : rootType v = .ok type := htype.trans hw
      rw [tree_of_rootType_ok hv, tree_of_rootType_ok hw, events_tree_of_rootType_ok hv,
        events_tree_of_rootType_ok hw, hevents, hsize, hroot]
      exact ⟨congrArg Except.ok (Prod.ext harena rfl), rfl⟩
  | refl v => exact ⟨rfl, rfl⟩
  | symm v w _ ih => exact ⟨ih.1.symm, ih.2.symm⟩
  | trans u v w _ _ ih ih' => exact ⟨ih.1.trans ih'.1, ih.2.trans ih'.2⟩

/-- The arena of a lowered value descends, however large it is. -/
theorem descends_of_tree {v : Json} {arena : Arena} {root : Handle}
    (h : (tree v).value = .ok (arena, root)) : arena.Descends := by
  cases htype : rootType v with
  | error e => simp [tree, htype] at h
  | ok type =>
    rw [tree_of_rootType_ok htype] at h
    obtain ⟨rfl, rfl⟩ := Prod.mk.inj (Except.ok.inj h)
    exact (Lowering.sound_lower Arena.sound_prepared v).descends

/-- However many holes are put into the lists of a value that is accepted or taken out of them, and
however many missing children get a field or lose it, wherever in the value: the root is the same in
arenas that are the same without the holes in their lists, that is in headers, parents, symbols and
all other data, and the identifiers that are extracted have the same handles. Below the limit
extraction succeeds for both. -/
theorem identifiers_eq_of_opens {v w : Json} {type : String}
    (hopens : Relation.EqvGen Json.Opens v w) (htype : rootType v = .ok type) :
    ∃ arena arena' root, (tree v).value = .ok (arena, root) ∧
      (tree w).value = .ok (arena', root) ∧ arena.withoutHoles = arena'.withoutHoles ∧
      (identifiers v).value.map Prod.snd = (identifiers w).value.map Prod.snd ∧
      (arena.size < Arena.nodeLimit → ∃ handles, (identifiers v).value = .ok (arena, handles) ∧
        (identifiers w).value = .ok (arena', handles)) := by
  obtain ⟨hvalue, hevents⟩ := tree_eq_of_opens hopens
  have hv := tree_of_rootType_ok htype
  rw [hv] at hvalue
  cases hw : (tree w).value with
  | error e =>
    rw [hw] at hvalue
    cases hvalue
  | ok x =>
    obtain ⟨arena', root⟩ := x
    rw [hw] at hvalue
    obtain ⟨harena, hroot⟩ := Prod.mk.inj (Except.ok.inj hvalue)
    obtain rfl : (lower v { arena := .prepared }).1 = root := hroot
    have hwalk : ∀ root t, (lower v { arena := .prepared }).2.arena.walk root t =
        arena'.walk root t := by
      intro root t
      rw [← Arena.walk_withoutHoles (descends_of_tree hv), harena,
        Arena.walk_withoutHoles (descends_of_tree hw)]
    refine ⟨_, arena', _, hv, rfl, harena, ?_, fun hsize ↦ ?_⟩
    · simp only [identifiers, hv, hw, hevents, hwalk]
      cases (arena'.walk _ _).1 <;> rfl
    · obtain ⟨hok, -⟩ := Lowering.walk_lower Arena.sound_prepared v hsize
        { events := (tree v).events }
      refine ⟨_, identifiers_of_tree hv hok, ?_⟩
      rw [hwalk, hevents] at hok ⊢
      exact identifiers_of_tree hw hok

/-- An array pattern of these elements. -/
def elementsPattern (elements : List Json) : Json :=
  .object [("type", "ArrayPattern"), ("elements", .array elements)]

/-- A binding with a default, of which the fields for the default are given. -/
def withDefault (fields : List (String × Json)) : Json :=
  .object (("type", "AssignmentPattern") ::
    ("left", .object [("type", "Identifier"), ("name", "a")]) :: fields)

/-- A hole goes from the front of the list to its end, and the default that is missing gets a
field. -/
theorem identifiers_elementsPattern :
    (identifiers (elementsPattern [.null, withDefault []])).value.map Prod.snd =
        .ok #[.ofNat 0] ∧
      (identifiers (elementsPattern [withDefault [("right", .null)], .null])).value.map Prod.snd =
        .ok #[.ofNat 0] := by
  have hfront : Json.Opens (elementsPattern [withDefault []])
      (elementsPattern [.null, withDefault []]) :=
    .hole [_] [] "elements" [] [_] (fun heq ↦ absurd heq (by decide)) (by decide)
  have hback : Json.Opens (elementsPattern [withDefault []])
      (elementsPattern [withDefault [], .null]) :=
    .hole [_] [] "elements" [_] [] (fun heq ↦ absurd heq (by decide)) (by decide)
  have hright : Json.Opens (elementsPattern [withDefault [], .null])
      (elementsPattern [withDefault [("right", .null)], .null]) :=
    .within [_] [] "elements" (fun heq ↦ absurd heq (by decide))
      (.item [] [_] (.child [_, _] [] "right" (fun heq ↦ absurd heq (by decide)) rfl))
  have hopens : Relation.EqvGen Json.Opens (elementsPattern [.null, withDefault []])
      (elementsPattern [withDefault [("right", .null)], .null]) :=
    .trans _ _ _ (.symm _ _ (.rel _ _ hfront)) (.trans _ _ _ (.rel _ _ hback) (.rel _ _ hright))
  obtain ⟨_, _, _, -, -, -, hsame, -⟩ := identifiers_eq_of_opens hopens rfl
  have hv : (identifiers (elementsPattern [.null, withDefault []])).value.map Prod.snd =
      .ok #[.ofNat 0] := rfl
  exact ⟨hv, hsame ▸ hv⟩

end Extraction

end BoundNames

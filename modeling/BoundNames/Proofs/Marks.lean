import BoundNames.Proofs.Layout
import BoundNames.Proofs.Paths
import Mathlib.Data.List.Pairwise

/-!
# The marks of a laid-out tree

A visit marks the nodes that it collects and those that it reports as nodes that bind nothing. Each
report names a node of the arena and gives its type (`marks_of_mem_marks`).

A tree that is laid out takes up one block of positions and its children take up blocks within it,
one after the other. A node is marked in three ways: as a node that is visited, as an entry of an
object pattern, and as the argument that a rest element is seen through to. In each of them the node
marks itself, or it marks part of what its children mark, in their order. So the root of the tree
marks positions of the block in increasing order (`Laid.marksAscend`), none of them twice. The keys,
defaults, imported names and sources that it passes over stand in blocks of their own.
-/

set_option autoImplicit false
set_option relaxedAutoImplicit false

namespace BoundNames

/-- The handles of a list name positions from `first` up to and without `last`, in increasing
order. -/
structure Ascends (first last : Nat) (handles : List Handle) : Prop where
  increasing : handles.Pairwise (· < ·)
  within {h : Handle} (hh : h ∈ handles) : first ≤ h.toNat ∧ h.toNat < last

namespace Ascends

variable {first middle last : Nat} {handles others : List Handle}

protected theorem nil : Ascends first last [] :=
  ⟨.nil, fun hh ↦ nomatch hh⟩

protected theorem singleton {h : Handle} (hfirst : first ≤ h.toNat) (hlast : h.toNat < last) :
    Ascends first last [h] := by
  refine ⟨List.pairwise_singleton _ _, fun hh ↦ ?_⟩
  obtain rfl := List.mem_singleton.1 hh
  exact ⟨hfirst, hlast⟩

/-- Lists in adjacent blocks are in order one after the other. -/
protected theorem append (h : Ascends first middle handles) (h' : Ascends middle last others)
    (hfirst : first ≤ middle) (hlast : middle ≤ last) :
    Ascends first last (handles ++ others) := by
  refine ⟨List.pairwise_append.2 ⟨h.increasing, h'.increasing, fun x hx y hy ↦ ?_⟩, fun hh ↦ ?_⟩
  · have hx := (h.within hx).2
    have hy := (h'.within hy).1
    rw [Handle.lt_iff_toNat_lt]
    omega
  · rcases List.mem_append.1 hh with hx | hy
    · have hx := h.within hx
      omega
    · have hy := h'.within hy
      omega

protected theorem sublist (h : Ascends first last handles) (hsub : others.Sublist handles) :
    Ascends first last others :=
  ⟨h.increasing.sublist hsub, fun hh ↦ h.within (hsub.subset hh)⟩

theorem widen (h : Ascends first middle handles) (hlast : middle ≤ last) :
    Ascends first last handles :=
  ⟨h.increasing, fun hh ↦ ⟨(h.within hh).1, Nat.lt_of_lt_of_le (h.within hh).2 hlast⟩⟩

end Ascends

/-- The node that an event of a visit passes over, and its type. -/
def Event.passed? : Event → Option (Handle × String)
  | noBindings node typeName | notAnEntry node typeName => some (node, typeName)
  | _ => none

namespace Step

/-- The node that a step collects or reports. -/
def node? : Step → Option Handle
  | bind node => some node
  | visit _ => none
  | report e => e.passed?.map Prod.fst

/-- The step collects a node, or it reports a node of the arena as one that it passes over, with the
type of the node. -/
def Marks (a : Arena) : Step → Prop
  | bind _ => True
  | visit _ => False
  | report e => ∃ x, e.passed? = some x ∧ a.typeName? x.1 = some x.2

/-- Where nodes are marked in increasing order, none is marked twice. -/
theorem eq_of_node?_eq {steps : List Step}
    (hincreasing : (steps.filterMap node?).Pairwise (· < ·)) {first second : Step}
    (hfirst : first ∈ steps) (hsecond : second ∈ steps) {node : Handle}
    (hnode : first.node? = some node) (hnode' : second.node? = some node) : first = second := by
  by_contra hne
  have hdistinct : steps.Pairwise fun p q ↦ ∀ h ∈ p.node?, ∀ h' ∈ q.node?, h ≠ h' := by
    rw [List.pairwise_filterMap] at hincreasing
    refine hincreasing.imp fun hlt h hh h' hh' heq ↦ ?_
    have hself := Handle.lt_iff_toNat_lt.1 (hlt h hh h' hh')
    rw [heq] at hself
    exact Nat.lt_irrefl _ hself
  have : Std.Symm fun p q : Step ↦ ∀ h ∈ p.node?, ∀ h' ∈ q.node?, h ≠ h' :=
    ⟨fun p q hpq h hh h' hh' ↦ (hpq h' hh' h hh).symm⟩
  exact hdistinct.forall hfirst hsecond hne node hnode node hnode' rfl

end Step

namespace Arena

/-- The marks of a node that is not seen through. -/
def ownMarks (a : Arena) (visited : Handle → List Step) (node : Handle) : List Step :=
  (a.header? node).elim [] fun n ↦ (a.stepsAt node n).flatMap (stepMarks visited)

/-- The marks of an entry of an object pattern. -/
def entryMarks (a : Arena) (visited : Handle → List Step) (entry : Handle) : List Step :=
  (a.entrySteps entry).flatMap (stepMarks visited)

variable {a : Arena}

/-! ### What the marks say -/

theorem marks_of_mem_entrySteps {entry : Handle} {step : Step} (h : step ∈ a.entrySteps entry) :
    (∃ child, step = .visit child) ∨ step.Marks a := by
  unfold entrySteps at h
  split at h
  · cases h
  · next n hn =>
    split at h
    · exact .inl ⟨_, List.mem_singleton.1 h⟩
    · exact .inl ⟨_, List.mem_singleton.1 h⟩
    · obtain rfl := List.mem_singleton.1 h
      exact .inr ⟨_, rfl, by simp [typeName?, hn]⟩

theorem marks_of_mem_stepsAt {node : Handle} {n : Header} (hn : a.header? node = some n)
    {step : Step} (h : step ∈ a.stepsAt node n) :
    (∃ child, step = .visit child) ∨ step.Marks a := by
  unfold stepsAt at h
  split at h
  · obtain rfl := List.mem_singleton.1 h
    exact .inr trivial
  · obtain ⟨child, -, rfl⟩ := List.mem_map.1 h
    exact .inl ⟨child, rfl⟩
  · obtain ⟨entry, -, hstep⟩ := List.mem_flatMap.1 h
    exact marks_of_mem_entrySteps hstep
  · exact .inl ⟨_, List.mem_singleton.1 h⟩
  · obtain ⟨child, -, rfl⟩ := List.mem_map.1 h
    exact .inl ⟨child, rfl⟩
  · exact .inl ⟨_, List.mem_singleton.1 h⟩
  · obtain rfl := List.mem_singleton.1 h
    exact .inr ⟨_, rfl, by simp [typeName?, hn]⟩

theorem marks_of_mem_steps {node : Handle} {step : Step} (h : step ∈ a.steps node) :
    (∃ child, step = .visit child) ∨ step.Marks a := by
  rcases a.steps_eq_nil_or_stepsAt node with hnil | ⟨subject, n, hn, -, hsteps⟩
  · rw [hnil] at h
    cases h
  · exact marks_of_mem_stepsAt hn (hsteps ▸ h)

/-- Every mark of a visit collects a node or reports one with its type. -/
theorem marks_of_mem_marks (budget : Nat) :
    ∀ node, ∀ step ∈ a.marks budget node, step.Marks a := by
  induction budget with
  | zero => exact fun _ _ h ↦ nomatch h
  | succ budget ih =>
    intro node step h
    obtain ⟨first, hfirst, hstep⟩ := List.mem_flatMap.1 h
    rcases marks_of_mem_steps hfirst with ⟨child, rfl⟩ | hmarks
    · exact ih child step hstep
    · cases first with
      | visit child => exact hmarks.elim
      | bind node =>
        obtain rfl := List.mem_singleton.1 hstep
        exact hmarks
      | report e =>
        obtain rfl := List.mem_singleton.1 hstep
        exact hmarks

/-- If the marks of a row are in increasing order, the nodes that it reports are in that order too,
each with its type, and none of them is collected. -/
theorem exists_passed {steps : List Step} (hmarks : ∀ step ∈ steps, step.Marks a)
    (hincreasing : (steps.filterMap Step.node?).Pairwise (· < ·)) :
    ∃ passed : List (Handle × String),
      (steps.filterMap Step.event?).map Event.passed? = passed.map some ∧
      (passed.map Prod.fst).Pairwise (· < ·) ∧
      ∀ x ∈ passed, a.typeName? x.1 = some x.2 ∧ x.1 ∉ steps.filterMap Step.bound? := by
  have hreport : ∀ e ∈ steps.filterMap Step.event?, Step.report e ∈ steps := by
    intro e he
    obtain ⟨step, hstep, hevent⟩ := List.mem_filterMap.1 he
    cases step <;> cases hevent
    exact hstep
  refine ⟨(steps.filterMap Step.event?).filterMap Event.passed?, ?_, ?_, ?_⟩
  · rw [List.map_filterMap_some_eq_filter_map_isSome, List.filter_eq_self.2]
    intro x hx
    obtain ⟨e, he, rfl⟩ := List.mem_map.1 hx
    obtain ⟨x, hx, -⟩ := hmarks _ (hreport e he)
    rw [hx]
    rfl
  · rw [List.pairwise_filterMap] at hincreasing
    rw [List.pairwise_map, List.pairwise_filterMap, List.pairwise_filterMap]
    refine hincreasing.imp fun {first second} hlt e he e' he' x hx x' hx' ↦ ?_
    cases first <;> cases he
    cases second <;> cases he'
    exact hlt x.1 (by simp [Step.node?, hx]) x'.1 (by simp [Step.node?, hx'])
  · intro x hx
    obtain ⟨e, he, hpassed⟩ := List.mem_filterMap.1 hx
    obtain ⟨y, hy, htype⟩ := hmarks _ (hreport e he)
    obtain rfl := Option.some.inj (hpassed.symm.trans hy)
    refine ⟨htype, fun hbound ↦ ?_⟩
    obtain ⟨step, hstep, hnode⟩ := List.mem_filterMap.1 hbound
    cases step <;> cases hnode
    have hsame : Step.report e = Step.bind x.1 :=
      Step.eq_of_node?_eq hincreasing (hreport e he) hstep (by simp [Step.node?, hpassed]) rfl
    cases hsame

/-! ### The order of the marks -/

theorem marks_absent (a : Arena) (budget : Nat) : a.marks budget .absent = [] := by
  cases budget <;> rfl

/-- A node that is not seen through is marked itself, or its marks are part of those of its
children, in their order. The children of an object pattern are its entries. -/
theorem ownMarks_sublist {visited : Handle → List Step} (habsent : visited .absent = [])
    {node : Handle} {s : Shape Symbol} (hs : a.shape? node = some s) :
    (a.ownMarks visited node).filterMap Step.node? = [node] ∨
      (a.ownMarks visited node).Sublist (s.children.flatMap visited) ∨
      (a.ownMarks visited node).Sublist (s.children.flatMap (a.entryMarks visited)) := by
  obtain ⟨n, hn, hshape⟩ := Option.bind_eq_some_iff.1 hs
  rw [ownMarks, hn, Option.elim_some, stepsAt, hshape]
  cases s with
  | arrayPattern elements =>
    have hmarks : ((elements.filter fun element ↦ !element.isAbsent).map Step.visit).flatMap
        (stepMarks visited) = elements.flatMap visited := by
      rw [List.flatMap_map]
      exact flatMap_filter_holes habsent elements
    exact .inr (.inl (hmarks ▸ List.Sublist.refl _))
  | objectPattern entries =>
    dsimp only
    rw [List.flatMap_assoc]
    exact .inr (.inr (List.Sublist.refl _))
  | assignment data => exact .inr (.inl (by simp [stepMarks, Shape.children]))
  | importing data =>
    dsimp only
    rw [List.flatMap_map, Shape.children, List.flatMap_append]
    exact .inr (.inl (List.sublist_append_left _ _))
  | specifier form data => exact .inr (.inl (by simp [stepMarks, Shape.children]))
  | _ => exact .inl rfl

/-- A visit marks what the node marks that it is about. -/
theorem marks_succ_eq {budget : Nat} {node : Handle} {s : Shape Symbol}
    (hs : a.shape? node = some s) :
    a.marks (budget + 1) node = a.ownMarks (a.marks budget) node ∨
      a.marks (budget + 1) node = s.children.flatMap (a.ownMarks (a.marks budget)) := by
  obtain ⟨n, hn, hshape⟩ := Option.bind_eq_some_iff.1 hs
  by_cases hrest : ∃ argument, s = .rest argument
  · obtain ⟨argument, rfl⟩ := hrest
    have hget : a.pools.rest? n = some argument := (Pools.rest?_eq_some_iff _ _ _).2 hshape
    right
    cases hm : a.header? argument <;>
      simp [marks, steps, subject?, hn, hget, hm, ownMarks, Shape.children]
  · have hnot : a.isRest node = false := by
      rw [← Bool.not_eq_true, isRest_eq_true_iff]
      rintro ⟨argument, hargument⟩
      exact hrest ⟨argument, Option.some.inj (hs.symm.trans hargument)⟩
    left
    rw [marks, steps_eq_stepsAt hn hnot, ownMarks, hn, Option.elim_some]

/-- An entry of an object pattern is marked itself, or it is visited, or its marks are part of those
of its children. -/
theorem entryMarks_sublist {visited : Handle → List Step} {entry : Handle} {s : Shape Symbol}
    (hs : a.shape? entry = some s) :
    (a.entryMarks visited entry).filterMap Step.node? = [entry] ∨
      a.entryMarks visited entry = visited entry ∨
      (a.entryMarks visited entry).Sublist (s.children.flatMap visited) := by
  obtain ⟨n, hn, hshape⟩ := Option.bind_eq_some_iff.1 hs
  rw [entryMarks, entrySteps, hn]
  dsimp only
  rw [hshape]
  cases s with
  | property data => exact .inr (.inr (by simp [stepMarks, Shape.children]))
  | rest argument => exact .inr (.inl (by simp [stepMarks]))
  | _ => exact .inl rfl

/-- In whatever way nodes are marked one after the other, they mark positions from `first` up to and
without `last`, in increasing order. -/
structure MarksAscend (a : Arena) (first last : Nat) (nodes : List Handle) : Prop where
  visits (budget : Nat) :
    Ascends first last ((nodes.flatMap (a.marks budget)).filterMap Step.node?)
  own (budget : Nat) :
    Ascends first last ((nodes.flatMap (a.ownMarks (a.marks budget))).filterMap Step.node?)
  entries (budget : Nat) :
    Ascends first last ((nodes.flatMap (a.entryMarks (a.marks budget))).filterMap Step.node?)

namespace MarksAscend

variable {first middle last : Nat} {nodes others : List Handle}

protected theorem nil : a.MarksAscend first last [] :=
  ⟨fun _ ↦ .nil, fun _ ↦ .nil, fun _ ↦ .nil⟩

protected theorem append (h : a.MarksAscend first middle nodes)
    (h' : a.MarksAscend middle last others) (hfirst : first ≤ middle) (hlast : middle ≤ last) :
    a.MarksAscend first last (nodes ++ others) := by
  refine ⟨fun budget ↦ ?_, fun budget ↦ ?_, fun budget ↦ ?_⟩
  · rw [List.flatMap_append, List.filterMap_append]
    exact (h.visits budget).append (h'.visits budget) hfirst hlast
  · rw [List.flatMap_append, List.filterMap_append]
    exact (h.own budget).append (h'.own budget) hfirst hlast
  · rw [List.flatMap_append, List.filterMap_append]
    exact (h.entries budget).append (h'.entries budget) hfirst hlast

theorem hole (h : a.MarksAscend first last nodes) :
    a.MarksAscend first last (.absent :: nodes) := by
  refine ⟨fun budget ↦ ?_, h.own, h.entries⟩
  rw [List.flatMap_cons, marks_absent]
  exact h.visits budget

/-- A node that follows its children in their block has its marks in order. -/
theorem node {node : Handle} {s : Shape Symbol} (hs : a.shape? node = some s)
    (h : a.MarksAscend first middle s.children) (hmiddle : middle ≤ node.toNat)
    (hfirst : first ≤ middle) (hlast : node.toNat < last) : a.MarksAscend first last [node] := by
  have hself : Ascends first last [node] := .singleton (by omega) hlast
  have hpart : ∀ {steps others : List Step}, steps.Sublist others →
      Ascends first middle (others.filterMap Step.node?) →
        Ascends first last (steps.filterMap Step.node?) :=
    fun hsub hothers ↦ (hothers.sublist (hsub.filterMap _)).widen (by omega)
  have hown : ∀ budget, Ascends first last
      ((a.ownMarks (a.marks budget) node).filterMap Step.node?) := by
    intro budget
    rcases ownMarks_sublist (a.marks_absent budget) hs with hown | hsub | hsub
    · exact hown ▸ hself
    · exact hpart hsub (h.visits budget)
    · exact hpart hsub (h.entries budget)
  have hvisits : ∀ budget, Ascends first last ((a.marks budget node).filterMap Step.node?) := by
    intro budget
    cases budget with
    | zero => exact .nil
    | succ budget =>
      rcases marks_succ_eq hs with heq | heq
      · exact heq ▸ hown budget
      · exact heq ▸ hpart (List.Sublist.refl _) (h.own budget)
  have hentries : ∀ budget, Ascends first last
      ((a.entryMarks (a.marks budget) node).filterMap Step.node?) := by
    intro budget
    rcases entryMarks_sublist hs with hentry | hentry | hsub
    · exact hentry ▸ hself
    · exact hentry ▸ hvisits budget
    · exact hpart hsub (h.visits budget)
  refine ⟨fun budget ↦ ?_, fun budget ↦ ?_, fun budget ↦ ?_⟩
  · rw [List.flatMap_singleton]
    exact hvisits budget
  · rw [List.flatMap_singleton]
    exact hown budget
  · rw [List.flatMap_singleton]
    exact hentries budget

end MarksAscend

open BoundNames.Tree

mutual

/-- A tree that is laid out marks positions of its block, in increasing order. -/
theorem Laid.marksAscend {base : Nat} {t : Tree} :
    a.Laid base t → base + t.size ≤ UInt32.size →
      a.MarksAscend base (base + t.size) [t.rootAt base]
  | .node below root, hsize => by
    obtain ⟨s, hs, hchildren⟩ := (Laid.node below root).exists_shape
    have hroot := toNat_rootAt hsize
    rw [size_eq] at hroot hsize ⊢
    have hbelow := below.marksAscend (by omega)
    rw [← hchildren] at hbelow
    exact .node hs hbelow (by omega) (by omega) (by omega)

theorem LaidItems.marksAscend {base : Nat} {items : List (Option Tree)} :
    a.LaidItems base items → base + sizeItems items ≤ UInt32.size →
      a.MarksAscend base (base + sizeItems items) (handlesAt base items)
  | .nil, _ => .nil
  | .hole tail, hsize => by
    simp only [sizeItems, sizeChild, Nat.zero_add] at hsize ⊢
    exact (tail.marksAscend hsize).hole
  | .cons head tail, hsize => by
    simp only [sizeItems, sizeChild, ← Nat.add_assoc] at hsize ⊢
    exact (head.marksAscend (by omega)).append (tail.marksAscend hsize) (by omega) (by omega)

end

/-- A visit of the root marks positions of the block. -/
theorem Laid.ascends_marks {base : Nat} {t : Tree} (h : a.Laid base t)
    (hsize : base + t.size ≤ UInt32.size) (budget : Nat) :
    Ascends base (base + t.size)
      ((a.marks budget (t.rootAt base)).filterMap Step.node?) := by
  have hvisits := (h.marksAscend hsize).visits budget
  rwa [List.flatMap_singleton] at hvisits

/-- It collects identifiers of the block, in increasing order. -/
theorem Laid.ascends {base : Nat} {t : Tree} (h : a.Laid base t)
    (hsize : base + t.size ≤ UInt32.size) (budget : Nat) :
    Ascends base (base + t.size) (a.binders budget (t.rootAt base)) := by
  have hbound : ∀ steps : List Step,
      (steps.filterMap Step.bound?).Sublist (steps.filterMap Step.node?) := by
    intro steps
    induction steps with
    | nil => exact .slnil
    | cons step others ih =>
      cases step with
      | bind node => exact ih.cons_cons node
      | visit child => exact ih
      | report e =>
        cases hpassed : e.passed? with
        | none => simpa [List.filterMap_cons, Step.bound?, Step.node?, hpassed] using ih
        | some x => simpa [List.filterMap_cons, Step.bound?, Step.node?, hpassed] using ih.cons x.1
  rw [binders_eq_filterMap_marks]
  exact (h.ascends_marks hsize budget).sublist (hbound _)

end Arena

end BoundNames

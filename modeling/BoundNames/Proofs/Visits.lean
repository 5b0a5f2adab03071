import BoundNames.Proofs.Reachable
import BoundNames.Walk
import Mathlib.Logic.Relation

/-!
# Visits of nodes

What a visit does, apart from the trail it goes on along: `marks` is the row of steps by which a
visit within a budget collects and reports, the visits within it written out (`follow_of_visit`),
and `binders` is the list of identifiers that it adds to the end of the trail (`found_of_visit`).

A visit within a visit is of a node that the first mentions, by one mention or more
(`transGen_of_visit_mem_steps`). In a descending arena, where no child that is a node follows its
parent, it is therefore lower than the one around it (`height_lt_of_visit_mem_steps`), where a
handle of no node is lowest of all. So a visit comes to an end within any budget that is above its
height (`exists_visit_eq_some`), such a budget has no effect on what is collected
(`binders_eq_bindersOf`), and `bindersOf` is the list that every walk from the node collects
(`walk_of_header?`). Sound arenas descend.
-/

set_option autoImplicit false
set_option relaxedAutoImplicit false

namespace BoundNames

/-! ### The marks of a visit -/

namespace Step

/-- The identifier that a step collects. -/
def bound? : Step → Option Handle
  | bind node => some node
  | _ => none

/-- The event that a step reports. -/
def event? : Step → Option Event
  | report e => some e
  | _ => none

end Step

/-- Collects and reports what the steps of a list do, visits left out. -/
def Trail.follow (t : Trail) (steps : List Step) : Trail :=
  steps.foldl (fun t step ↦
    match step with
    | .bind node => t.collect node
    | .visit _ => t
    | .report e => t.report e) t

namespace Trail

theorem found_follow (t : Trail) (steps : List Step) :
    (t.follow steps).found.toList = t.found.toList ++ steps.filterMap Step.bound? := by
  induction steps generalizing t with
  | nil => simp [follow]
  | cons step others ih =>
    have hcons : t.follow (step :: others) = (t.follow [step]).follow others := rfl
    rw [hcons, ih]
    cases step <;> simp [follow, collect, report, List.filterMap_cons, Step.bound?]

theorem events_follow (t : Trail) (steps : List Step) :
    (t.follow steps).events.toList = t.events.toList ++ steps.filterMap Step.event? := by
  induction steps generalizing t with
  | nil => simp [follow]
  | cons step others ih =>
    have hcons : t.follow (step :: others) = (t.follow [step]).follow others := rfl
    rw [hcons, ih]
    cases step <;> simp [follow, collect, report, List.filterMap_cons, Step.event?]

theorem follow_append (t : Trail) (steps others : List Step) :
    t.follow (steps ++ others) = (t.follow steps).follow others :=
  List.foldl_append

end Trail

namespace Arena

/-- What a step of a visit collects and reports, by what visits of children do. -/
def stepMarks (visited : Handle → List Step) : Step → List Step
  | .visit child => visited child
  | step => [step]

/-- All that a visit collects and reports in turn, visits beyond the budget left out. -/
def marks (a : Arena) : Nat → Handle → List Step
  | 0, _ => []
  | budget + 1, node => (a.steps node).flatMap (stepMarks (a.marks budget))

/-- The identifiers that a visit collects, visits beyond the budget left out. -/
def binders (a : Arena) : Nat → Handle → List Handle
  | 0, _ => []
  | budget + 1, node =>
    (a.steps node).flatMap fun step ↦
      match step with
      | .bind identifier => [identifier]
      | .visit child => a.binders budget child
      | .report _ => []

/-- Steps that each come to an end come to an end in turn. -/
theorem exists_foldlM_eq_some {f : Trail → Step → Option Trail} {steps : List Step}
    (hf : ∀ t, ∀ step ∈ steps, ∃ u, f t step = some u) :
    ∀ t, ∃ u, steps.foldlM f t = some u := by
  induction steps with
  | nil => exact fun t ↦ ⟨t, rfl⟩
  | cons step others ih =>
    intro t
    obtain ⟨v, hv⟩ := hf t step List.mem_cons_self
    obtain ⟨u, hu⟩ := ih (fun t step hstep ↦ hf t step (List.mem_cons_of_mem _ hstep)) v
    rw [List.foldlM_cons]
    exact ⟨u, Option.bind_eq_some_iff.2 ⟨v, hv, hu⟩⟩

theorem follow_of_foldlM {f : Trail → Step → Option Trail} {visited : Handle → List Step}
    (hf : ∀ t step u, f t step = some u → u = t.follow (stepMarks visited step))
    (steps : List Step) :
    ∀ t u, steps.foldlM f t = some u → u = t.follow (steps.flatMap (stepMarks visited)) := by
  induction steps with
  | nil =>
    intro t u h
    exact (Option.some.inj h).symm
  | cons step others ih =>
    intro t u h
    rw [List.foldlM_cons] at h
    obtain ⟨v, hv, hu⟩ := Option.bind_eq_some_iff.1 h
    rw [ih v u hu, hf t step v hv, List.flatMap_cons, Trail.follow_append]

/-- A visit that comes to an end follows its marks. -/
theorem follow_of_visit (a : Arena) (budget : Nat) :
    ∀ node t u, a.visit budget node t = some u → u = t.follow (a.marks budget node) := by
  induction budget with
  | zero => exact fun _ _ _ h ↦ nomatch h
  | succ budget ih =>
    intro node t u h
    refine follow_of_foldlM ?_ (a.steps node) t u h
    intro t step u h
    cases step with
    | bind identifier => exact (Option.some.inj h).symm
    | visit child => exact ih child t u h
    | report e => exact (Option.some.inj h).symm

/-- The identifiers that a visit collects are those among its marks. -/
theorem binders_eq_filterMap_marks (a : Arena) (budget : Nat) :
    ∀ node, a.binders budget node = (a.marks budget node).filterMap Step.bound? := by
  induction budget with
  | zero => exact fun _ ↦ rfl
  | succ budget ih =>
    intro node
    rw [binders, marks, List.filterMap_flatMap]
    refine List.flatMap_congr fun step _ ↦ ?_
    cases step with
    | bind identifier => rfl
    | visit child => exact ih child
    | report e => rfl

/-- A visit that comes to an end adds its identifiers to the end of the trail. -/
theorem found_of_visit (a : Arena) (budget : Nat) (node : Handle) (t u : Trail)
    (h : a.visit budget node t = some u) :
    u.found.toList = t.found.toList ++ a.binders budget node := by
  rw [a.follow_of_visit budget node t u h, Trail.found_follow, binders_eq_filterMap_marks]

/-! ### Nodes that mention others -/

theorem isSome_header?_iff {a : Arena} {node : Handle} :
    (a.header? node).isSome ↔ node ≠ .absent ∧ node.toNat < a.size := by
  by_cases hnode : node = .absent
  · simp [header?, Handle.isAbsent, hnode]
  · simp [header?, Handle.isAbsent, hnode, size]

theorem isSome_header?_of_shape? {a : Arena} {node : Handle} {s : Shape Symbol}
    (hs : a.shape? node = some s) : (a.header? node).isSome := by
  obtain ⟨n, hn, -⟩ := Option.bind_eq_some_iff.1 hs
  exact Option.isSome_of_eq_some hn

/-- The node has the child. -/
def Mentions (a : Arena) (node child : Handle) : Prop :=
  ∃ s, a.shape? node = some s ∧ child ∈ s.children

theorem mentions_of_header? {a : Arena} {node child : Handle} {n : Header} {s : Shape Symbol}
    (hn : a.header? node = some n) (hs : a.pools.shape? n = some s) (hchild : child ∈ s.children) :
    a.Mentions node child :=
  ⟨s, by rw [shape?, hn, Option.bind_some, hs], hchild⟩

/-- A node that mentions another is a node of the arena. -/
theorem Mentions.isSome_header? {a : Arena} {node child : Handle} (h : a.Mentions node child) :
    (a.header? node).isSome := by
  obtain ⟨s, hs, -⟩ := h
  exact isSome_header?_of_shape? hs

/-- An entry of an object pattern leads to the value of a property or is visited itself. -/
theorem reflTransGen_of_visit_mem_entrySteps {a : Arena} {entry child : Handle}
    (hchild : Step.visit child ∈ a.entrySteps entry) :
    Relation.ReflTransGen a.Mentions entry child := by
  unfold entrySteps at hchild
  split at hchild
  · cases hchild
  · next n hn =>
    split at hchild
    · next data hdata =>
      obtain rfl : child = data.value := by simpa using hchild
      exact .single (mentions_of_header? hn hdata (by simp [Shape.children]))
    · obtain rfl : child = entry := by simpa using hchild
      exact .refl
    · simp at hchild

theorem transGen_of_visit_mem_stepsAt {a : Arena} {node child : Handle} {n : Header}
    (hn : a.header? node = some n) (hchild : Step.visit child ∈ a.stepsAt node n) :
    Relation.TransGen a.Mentions node child := by
  unfold stepsAt at hchild
  split at hchild
  · simp at hchild
  · next elements hs =>
    have hmem : child ∈ elements ∧ child.isAbsent = false := by simpa using hchild
    exact .single (mentions_of_header? hn hs hmem.1)
  · next entries hs =>
    obtain ⟨entry, hentry, hstep⟩ := List.mem_flatMap.1 hchild
    exact .head' (mentions_of_header? hn hs hentry) (reflTransGen_of_visit_mem_entrySteps hstep)
  · next data hs =>
    obtain rfl : child = data.left := by simpa using hchild
    exact .single (mentions_of_header? hn hs (by simp [Shape.children]))
  · next data hs =>
    have hmem : child ∈ data.specifiers := by simpa using hchild
    exact .single (mentions_of_header? hn hs (by simp [Shape.children, hmem]))
  · next form data hs =>
    obtain rfl : child = data.localName := by simpa using hchild
    exact .single (mentions_of_header? hn hs (by simp [Shape.children]))
  · simp at hchild

/-- A visit takes no steps, or it takes those of a node that is not seen through: the node itself
or, in place of a rest element, its argument. -/
theorem steps_eq_nil_or_stepsAt (a : Arena) (node : Handle) :
    a.steps node = [] ∨ ∃ subject n, a.header? subject = some n ∧
      Relation.ReflTransGen a.Mentions node subject ∧ a.steps node = a.stepsAt subject n := by
  cases hn : a.header? node with
  | none => exact .inl (by simp [steps, subject?, hn])
  | some n =>
    cases hrest : a.pools.rest? n with
    | none => exact .inr ⟨node, n, hn, .refl, by simp [steps, subject?, hn, hrest]⟩
    | some argument =>
      have hargument := mentions_of_header? hn ((Pools.rest?_eq_some_iff _ _ _).1 hrest)
        (by simp [Shape.children] : argument ∈ _)
      cases hm : a.header? argument with
      | none => exact .inl (by simp [steps, subject?, hn, hrest, hm])
      | some m =>
        exact .inr ⟨argument, m, hm, .single hargument, by simp [steps, subject?, hn, hrest, hm]⟩

/-- A visit within a visit is of a node below, by one mention or more. -/
theorem transGen_of_visit_mem_steps {a : Arena} {node child : Handle}
    (hchild : Step.visit child ∈ a.steps node) : Relation.TransGen a.Mentions node child := by
  rcases a.steps_eq_nil_or_stepsAt node with hnil | ⟨subject, n, hn, hsubject, hsteps⟩
  · rw [hnil] at hchild
    cases hchild
  · rw [hsteps] at hchild
    exact .trans_right hsubject (transGen_of_visit_mem_stepsAt hn hchild)

/-! ### Descending arenas -/

/-- A child that is a node precedes its parent. -/
def Descends (a : Arena) : Prop :=
  ∀ node s, a.shape? node = some s → ∀ child ∈ s.children,
    a.header? child = none ∨ child.toNat < node.toNat

theorem header?_absent (a : Arena) : a.header? .absent = none := rfl

theorem Sound.descends {a : Arena} (ha : a.Sound) : a.Descends := by
  intro node s hs child hchild
  rcases ha.children_lt hs hchild with rfl | hlt
  · exact .inl a.header?_absent
  · exact .inr hlt

/-- The height of a visit: that of no node is lowest, and nodes follow in their order. -/
def height (a : Arena) (node : Handle) : Nat :=
  if (a.header? node).isSome then node.toNat + 1 else 0

theorem height_of_header? {a : Arena} {node : Handle} {n : Header} (hn : a.header? node = some n) :
    a.height node = node.toNat + 1 := by
  simp [height, hn]

theorem height_le_size (a : Arena) (node : Handle) : a.height node ≤ a.size := by
  unfold height
  split
  · next hn =>
    obtain ⟨n, hn⟩ := Option.isSome_iff_exists.1 hn
    obtain ⟨-, hplace⟩ := (header?_eq_some_iff _ _ _).1 hn
    exact (Array.getElem?_eq_some_iff.1 hplace).1
  · exact Nat.zero_le _

section Descending

variable {a : Arena} (ha : a.Descends)

include ha

theorem height_lt_of_mentions {node child : Handle} (h : a.Mentions node child) :
    a.height child < a.height node := by
  obtain ⟨s, hs, hchild⟩ := h
  obtain ⟨n, hn, -⟩ := Option.bind_eq_some_iff.1 hs
  rw [height_of_header? hn]
  rcases ha node s hs child hchild with hnone | hlt
  · simp [height, hnone]
  · unfold height
    split
    · omega
    · omega

theorem height_lt_of_mem_children {node : Handle} {s : Shape Symbol} (hs : a.shape? node = some s)
    {child : Handle} (hchild : child ∈ s.children) : a.height child < a.height node :=
  height_lt_of_mentions ha ⟨s, hs, hchild⟩

theorem height_lt_of_transGen {node child : Handle} (h : Relation.TransGen a.Mentions node child) :
    a.height child < a.height node := by
  induction h with
  | single h => exact height_lt_of_mentions ha h
  | tail _ h ih => exact Nat.lt_trans (height_lt_of_mentions ha h) ih

/-- A visit within a visit is lower than the one around it. -/
theorem height_lt_of_visit_mem_steps {node child : Handle}
    (hchild : Step.visit child ∈ a.steps node) : a.height child < a.height node :=
  height_lt_of_transGen ha (transGen_of_visit_mem_steps hchild)

/-- A visit comes to an end within every budget above its height. -/
theorem exists_visit_eq_some (budget : Nat) :
    ∀ node t, a.height node < budget → ∃ u, a.visit budget node t = some u := by
  induction budget with
  | zero => exact fun _ _ h ↦ absurd h (Nat.not_lt_zero _)
  | succ budget ih =>
    intro node t hheight
    rw [visit]
    refine exists_foldlM_eq_some (fun t step hstep ↦ ?_) t
    cases step with
    | bind identifier => exact ⟨_, rfl⟩
    | visit child =>
      have hlt := height_lt_of_visit_mem_steps ha hstep
      exact ih child t (by omega)
    | report e => exact ⟨_, rfl⟩

/-- Budgets above the height of a visit collect the same identifiers. -/
theorem binders_eq_binders (budget : Nat) :
    ∀ other node, a.height node < budget → a.height node < other →
      a.binders budget node = a.binders other node := by
  induction budget with
  | zero => exact fun _ _ h ↦ absurd h (Nat.not_lt_zero _)
  | succ budget ih =>
    intro other node hbudget hother
    obtain ⟨other, rfl⟩ : ∃ k, other = k + 1 := ⟨other - 1, by omega⟩
    rw [binders, binders]
    refine List.flatMap_congr fun step hstep ↦ ?_
    cases step with
    | bind identifier => rfl
    | visit child =>
      have hlt := height_lt_of_visit_mem_steps ha hstep
      exact ih other child (by omega) (by omega)
    | report e => rfl

end Descending

/-- The identifiers that a visit collects within the least budget that is enough. -/
def bindersOf (a : Arena) (node : Handle) : List Handle :=
  a.binders (a.height node + 1) node

theorem binders_eq_bindersOf {a : Arena} (ha : a.Descends) {budget : Nat} {node : Handle}
    (h : a.height node < budget) : a.binders budget node = a.bindersOf node :=
  binders_eq_binders ha budget _ node h (Nat.lt_succ_self _)

/-- What a step of a visit collects, by what visits of children collect. -/
def stepBinders (visited : Handle → List Handle) : Step → List Handle
  | .bind identifier => [identifier]
  | .visit child => visited child
  | .report _ => []

theorem binders_succ (a : Arena) (budget : Nat) (node : Handle) :
    a.binders (budget + 1) node = (a.steps node).flatMap (stepBinders (a.binders budget)) := rfl

/-- A visit collects what its steps collect in turn. -/
theorem bindersOf_eq_flatMap {a : Arena} (ha : a.Descends) (node : Handle) :
    a.bindersOf node = (a.steps node).flatMap (stepBinders a.bindersOf) := by
  rw [bindersOf, binders]
  refine List.flatMap_congr fun step hstep ↦ ?_
  cases step with
  | bind identifier => rfl
  | visit child => exact binders_eq_bindersOf ha (height_lt_of_visit_mem_steps ha hstep)
  | report e => rfl

/-- A walk from a node is a visit of it between two reports. -/
theorem walk_of_visit {a : Arena} {root : Handle} {n : Header} (hroot : a.header? root = some n)
    {t u : Trail} (hu : a.visit (a.size + 1) root (t.report (.walking root)) = some u) :
    a.walk root t = (.ok (), u.report (.collected (u.found.size - t.found.size))) := by
  have hcheck : a.checkRoot root = .ok () := by
    have habsent := ((header?_eq_some_iff _ _ _).1 hroot).1
    simp [checkRoot, hroot, Handle.isAbsent_iff, habsent]
  simp only [walk, hcheck, hu]
  rfl

/-- A walk from a node follows the marks of the node between two reports. -/
theorem walk_eq_follow {a : Arena} (ha : a.Descends) {root : Handle} {n : Header}
    (hroot : a.header? root = some n) (t : Trail) :
    ∃ u, u = (t.report (.walking root)).follow (a.marks (a.size + 1) root) ∧
      a.walk root t = (.ok (), u.report (.collected (u.found.size - t.found.size))) := by
  have hheight : a.height root < a.size + 1 := Nat.lt_succ_of_le (a.height_le_size root)
  obtain ⟨u, hu⟩ := exists_visit_eq_some ha (a.size + 1) root (t.report (.walking root)) hheight
  exact ⟨u, a.follow_of_visit _ _ _ _ hu, walk_of_visit hroot hu⟩

/-- A walk from a node adds the identifiers under the node to the end of its trail. -/
theorem walk_of_header? {a : Arena} (ha : a.Descends) {root : Handle} {n : Header}
    (hroot : a.header? root = some n) (t : Trail) :
    (a.walk root t).1 = .ok () ∧
      (a.walk root t).2.found.toList = t.found.toList ++ a.bindersOf root := by
  obtain ⟨u, hu, hwalk⟩ := walk_eq_follow ha hroot t
  have hfound : u.found.toList = t.found.toList ++ a.bindersOf root := by
    rw [hu, Trail.found_follow, ← binders_eq_filterMap_marks,
      binders_eq_bindersOf ha (Nat.lt_succ_of_le (a.height_le_size root))]
    rfl
  rw [hwalk]
  exact ⟨rfl, hfound⟩

theorem bound_of_header? {a : Arena} (ha : a.Descends) {root : Handle} {n : Header}
    (hroot : a.header? root = some n) : a.bound root = .ok (a.bindersOf root).toArray := by
  obtain ⟨hok, hfound⟩ := walk_of_header? ha hroot {}
  rw [List.nil_append] at hfound
  simp only [bound, boundInto, hok, Except.map, ← hfound]

end Arena

end BoundNames

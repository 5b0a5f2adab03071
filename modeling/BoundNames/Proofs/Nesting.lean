import BoundNames.Proofs.Paths
import Mathlib.Data.List.Chain
import Mathlib.Data.List.Nodup
import Mathlib.Data.List.Perm.Subperm

/-!
# Visits within visits

A visit of a node makes visits of others (`Calls`), and visits lie within each other in rows
(`Nested`). A visit comes to an end within a budget if and only if no row that starts with it is
longer than the budget (`isSome_visit_iff`, `ends_iff_length_lt`), and then every larger budget
gives the same trail (`visit_of_le`).

Nothing is asked of the arena for this, nor for the budget of a walk. A visit that comes to an end
never comes back to a node that it is in (`Ends.not_transGen`), and in a row only the last visit can
be of no node, so a row has at most one visit more than the arena has nodes
(`Ends.length_le_size`). A walk that ends within any budget at all therefore ends within its own
(`walk_of_visit_within`).

In a descending arena a visit within another is of a node before it or of no node. A row then has no
more visits of nodes than there are positions up to that of its first node (`length_visits_le`), and
two visits more than the position are budget enough (`visits_descend`).
-/

set_option autoImplicit false
set_option relaxedAutoImplicit false

namespace BoundNames.Arena

variable {a : Arena}

/-- A visit of the node makes a visit of the child. -/
def Calls (a : Arena) (node child : Handle) : Prop :=
  Step.visit child ∈ a.steps node

/-- The visits lie within each other, the outermost first. -/
def Nested (a : Arena) (visits : List Handle) : Prop :=
  visits.IsChain a.Calls

/-- The visits within a visit of the node, and those within them, fit in the budget. -/
def Ends (a : Arena) : Nat → Handle → Prop
  | 0, _ => False
  | budget + 1, node => ∀ child, a.Calls node child → a.Ends budget child

/-! ### Budgets -/

/-- If steps come to an end in turn, each of them came to an end. -/
theorem exists_step_of_foldlM {f : Trail → Step → Option Trail} {steps : List Step} {t u : Trail}
    (h : steps.foldlM f t = some u) : ∀ step ∈ steps, ∃ t' u', f t' step = some u' := by
  induction steps generalizing t with
  | nil => exact fun _ hstep ↦ nomatch hstep
  | cons first others ih =>
    rw [List.foldlM_cons] at h
    obtain ⟨v, hv, hu⟩ := Option.bind_eq_some_iff.1 h
    intro step hstep
    rcases List.mem_cons.1 hstep with rfl | hstep
    · exact ⟨t, v, hv⟩
    · exact ih hu step hstep

/-- Steps that each give the same where they come to an end give the same in turn. -/
theorem foldlM_of_foldlM {f g : Trail → Step → Option Trail}
    (hfg : ∀ t step u, f t step = some u → g t step = some u) (steps : List Step) :
    ∀ t u, steps.foldlM f t = some u → steps.foldlM g t = some u := by
  induction steps with
  | nil => exact fun _ _ h ↦ h
  | cons step others ih =>
    intro t u h
    rw [List.foldlM_cons] at h ⊢
    obtain ⟨v, hv, hu⟩ := Option.bind_eq_some_iff.1 h
    rw [hfg t step v hv]
    exact ih v u hu

/-- Whether a visit comes to an end does not depend on the trail it goes on along. -/
theorem isSome_visit_iff (budget : Nat) :
    ∀ node t, (a.visit budget node t).isSome ↔ a.Ends budget node := by
  induction budget with
  | zero => exact fun _ _ ↦ ⟨fun h ↦ (by cases h), False.elim⟩
  | succ budget ih =>
    intro node t
    constructor
    · intro h child hchild
      obtain ⟨u, hu⟩ := Option.isSome_iff_exists.1 h
      obtain ⟨t', u', hu'⟩ := exists_step_of_foldlM hu _ hchild
      exact (ih child t').1 (Option.isSome_of_eq_some hu')
    · intro h
      rw [Option.isSome_iff_exists, visit]
      refine exists_foldlM_eq_some (fun t step hstep ↦ ?_) t
      cases step with
      | bind identifier => exact ⟨_, rfl⟩
      | visit child => exact Option.isSome_iff_exists.1 ((ih child t).2 (h child hstep))
      | report e => exact ⟨_, rfl⟩

/-- A visit that comes to an end does the same within every larger budget. -/
theorem visit_of_le (budget : Nat) :
    ∀ larger node t u, a.visit budget node t = some u → budget ≤ larger →
      a.visit larger node t = some u := by
  induction budget with
  | zero => exact fun _ _ _ _ h ↦ nomatch h
  | succ budget ih =>
    intro larger node t u h hle
    obtain ⟨larger, rfl⟩ : ∃ k, larger = k + 1 := ⟨larger - 1, by omega⟩
    refine foldlM_of_foldlM (fun t step u hstep ↦ ?_) (a.steps node) t u h
    cases step with
    | bind identifier => exact hstep
    | visit child => exact ih larger child t u hstep (Nat.le_of_succ_le_succ hle)
    | report e => exact hstep

/-- Two budgets within which a visit comes to an end give the same trail. -/
theorem visit_eq_of_ends {budget other : Nat} {node : Handle} {t u : Trail}
    (h : a.visit budget node t = some u) (hother : a.Ends other node) :
    a.visit other node t = some u := by
  obtain ⟨v, hv⟩ := Option.isSome_iff_exists.1 ((isSome_visit_iff other node t).2 hother)
  have hmax := visit_of_le other (max budget other) node t v hv (Nat.le_max_right _ _)
  rw [visit_of_le budget _ node t u h (Nat.le_max_left _ _)] at hmax
  rw [hv, hmax]

/-- A budget is enough if and only if it is enough for each row of visits. -/
theorem ends_iff_length_lt (budget : Nat) :
    ∀ node, a.Ends budget node ↔
      ∀ visits, a.Nested (node :: visits) → visits.length < budget := by
  induction budget with
  | zero =>
    intro node
    refine ⟨False.elim, fun h ↦ ?_⟩
    exact Nat.not_lt_zero _ (h [] (List.isChain_singleton _))
  | succ budget ih =>
    intro node
    constructor
    · intro h visits hvisits
      cases visits with
      | nil => exact Nat.succ_pos _
      | cons child others =>
        obtain ⟨hcalls, hothers⟩ := List.isChain_cons_cons.1 hvisits
        exact Nat.succ_lt_succ ((ih child).1 (h child hcalls) others hothers)
    · intro h child hcalls
      refine (ih child).2 fun others hothers ↦ ?_
      have hvisits := List.isChain_cons_cons.2 ⟨hcalls, hothers⟩
      exact Nat.lt_of_succ_lt_succ (h (child :: others) hvisits)

/-! ### The budget of a walk -/

theorem Calls.isSome_header? {node child : Handle} (h : a.Calls node child) :
    (a.header? node).isSome := by
  rw [Option.isSome_iff_ne_none]
  intro hnone
  rw [Calls, steps_of_header?_eq_none hnone] at h
  cases h

/-- Only the last visit of a row can be of no node. -/
theorem Nested.isSome_header? {visits : List Handle} (h : a.Nested visits) :
    ∀ node ∈ visits.dropLast, (a.header? node).isSome := by
  induction visits with
  | nil => exact fun _ hnode ↦ nomatch hnode
  | cons first others ih =>
    cases others with
    | nil => exact fun _ hnode ↦ nomatch hnode
    | cons second others =>
      obtain ⟨hcalls, hothers⟩ := List.isChain_cons_cons.1 h
      intro node hnode
      rcases List.mem_cons.1 hnode with rfl | hnode
      · exact hcalls.isSome_header?
      · exact ih hothers node hnode

/-- Different nodes have different positions, so there are no more of them than the arena has. -/
theorem length_le_size {nodes : List Handle} (hnodup : nodes.Nodup)
    (hnodes : ∀ node ∈ nodes, (a.header? node).isSome) : nodes.length ≤ a.size := by
  have hplaces : (nodes.map Handle.toNat).Nodup :=
    hnodup.map fun _ _ heq ↦ Handle.toNat_inj.1 heq
  have hsubset : nodes.map Handle.toNat ⊆ List.range a.size := by
    intro i hi
    obtain ⟨node, hnode, rfl⟩ := List.mem_map.1 hi
    exact List.mem_range.2 (isSome_header?_iff.1 (hnodes node hnode)).2
  have hle := (hplaces.subperm hsubset).length_le
  rwa [List.length_map, List.length_range] at hle

namespace Ends

variable {budget : Nat} {node : Handle}

theorem of_le (h : a.Ends budget node) {larger : Nat} (hle : budget ≤ larger) :
    a.Ends larger node := by
  rw [ends_iff_length_lt] at h ⊢
  exact fun visits hvisits ↦ Nat.lt_of_lt_of_le (h visits hvisits) hle

theorem of_transGen (h : a.Ends (budget + 1) node) {child : Handle}
    (hchild : Relation.TransGen a.Calls node child) : a.Ends budget child := by
  induction hchild with
  | single hcalls => exact h _ hcalls
  | tail _ hcalls ih =>
    cases budget with
    | zero => exact ih.elim
    | succ budget => exact (ih _ hcalls).of_le (Nat.le_succ _)

/-- A visit that comes to an end does not come back to its node. -/
theorem not_transGen (h : a.Ends budget node) : ¬ Relation.TransGen a.Calls node node := by
  induction budget with
  | zero => exact h.elim
  | succ budget ih => exact fun hback ↦ ih (h.of_transGen hback) hback

/-- In a row of visits that come to an end no node is visited twice. -/
theorem nodup {visits : List Handle} (h : a.Ends budget node)
    (hvisits : a.Nested (node :: visits)) : (node :: visits).Nodup := by
  induction visits generalizing node budget with
  | nil => exact List.nodup_singleton _
  | cons child others ih =>
    obtain ⟨hcalls, hothers⟩ := List.isChain_cons_cons.1 hvisits
    refine List.nodup_cons.2 ⟨fun hmem ↦ h.not_transGen ?_, ?_⟩
    · -- A row that holds its first node again leads back to it.
      exact (hvisits.imp fun _ _ ↦ Relation.TransGen.single).rel_cons hmem
    · cases budget with
      | zero => exact h.elim
      | succ budget => exact ih (h child hcalls) hothers

/-- A row of visits that come to an end has at most one visit more than there are nodes. -/
theorem length_le_size {visits : List Handle} (h : a.Ends budget node)
    (hvisits : a.Nested (node :: visits)) : visits.length ≤ a.size := by
  have hnodup := (h.nodup hvisits).sublist (List.dropLast_sublist _)
  have hle := Arena.length_le_size hnodup hvisits.isSome_header?
  rwa [List.length_dropLast, List.length_cons, Nat.add_sub_cancel] at hle

/-- The number of nodes and one more is budget enough for every visit that comes to an end. -/
theorem size (h : a.Ends budget node) : a.Ends (a.size + 1) node :=
  (ends_iff_length_lt _ node).2 fun _ hvisits ↦ Nat.lt_succ_of_le (h.length_le_size hvisits)

end Ends

/-- A walk from a node is the visit of the node within any budget that is enough for it. -/
theorem walk_of_visit_within {root : Handle} {n : Header} (hroot : a.header? root = some n)
    {budget : Nat} {t u : Trail} (h : a.visit budget root (t.report (.walking root)) = some u) :
    a.walk root t = (.ok (), u.report (.collected (u.found.size - t.found.size))) := by
  have hends : a.Ends budget root := (isSome_visit_iff _ _ _).1 (Option.isSome_of_eq_some h)
  exact walk_of_visit hroot (visit_eq_of_ends h hends.size)

/-! ### Descending arenas -/

theorem height_le_toNat_succ (a : Arena) (node : Handle) : a.height node ≤ node.toNat + 1 := by
  unfold height
  split
  · exact Nat.le_refl _
  · exact Nat.zero_le _

section Descending

variable (ha : a.Descends)

include ha

theorem height_lt_of_calls {node child : Handle} (h : a.Calls node child) :
    a.height child < a.height node :=
  height_lt_of_visit_mem_steps ha h

/-- A visit within another is of no node or of one before. -/
theorem header?_eq_none_or_lt_of_calls {node child : Handle} (h : a.Calls node child) :
    a.header? child = none ∨ child.toNat < node.toNat := by
  have hlt := height_lt_of_calls ha h
  obtain ⟨n, hn⟩ := Option.isSome_iff_exists.1 h.isSome_header?
  rw [height_of_header? hn] at hlt
  cases hchild : a.header? child with
  | none => exact .inl rfl
  | some m =>
    rw [height_of_header? hchild] at hlt
    exact .inr (Nat.lt_of_succ_lt_succ hlt)

/-- The heights of a row decrease, so it has no more visits of nodes than its first is high. -/
theorem length_visits_le {node : Handle} {visits : List Handle}
    (h : a.Nested (node :: visits)) :
    ((node :: visits).filter fun visit ↦ (a.header? visit).isSome).length ≤ a.height node := by
  induction visits generalizing node with
  | nil =>
    cases hn : a.header? node with
    | none => simp [hn]
    | some n =>
      rw [height_of_header? hn]
      simp [hn]
  | cons child others ih =>
    obtain ⟨hcalls, hothers⟩ := List.isChain_cons_cons.1 h
    -- A node that makes a visit counts one, and what it visits is lower.
    have hlt := height_lt_of_calls ha hcalls
    have hle := ih hothers
    rw [List.filter_cons, if_pos hcalls.isSome_header?, List.length_cons]
    omega

theorem exists_visit_toNat (node : Handle) (t : Trail) :
    ∃ u, a.visit (node.toNat + 2) node t = some u :=
  exists_visit_eq_some ha _ node t (Nat.lt_succ_of_le (a.height_le_toNat_succ node))

/-- A walk in a descending arena is rejected for its root at most, never for having no end. -/
theorem walk_ne_endless (root : Handle) (t : Trail) :
    (a.walk root t).1 ≠ .error (.endless root) := by
  obtain ⟨u, hu⟩ := exists_visit_eq_some ha (a.size + 1) root (t.report (.walking root))
    (Nat.lt_succ_of_le (a.height_le_size root))
  unfold walk checkRoot
  dsimp only
  by_cases habsent : root.isAbsent = true
  · rw [if_pos habsent]
    exact nofun
  · rw [if_neg habsent]
    by_cases hnone : (a.header? root).isNone = true
    · rw [if_pos hnone]
      exact nofun
    · rw [if_neg hnone]
      dsimp only
      rw [hu]
      exact nofun

end Descending

/-- If every child that is a node precedes its parent, then a visit that a visit makes, through the
argument of a rest element or through an entry of an object pattern as well, is of a node before it
or of no node. Within each other there are then no more visits of nodes than the position of the
root and one more, and a budget of two more than the position gives the same trail as every larger
one. All arenas that edits lead to are of this sort, so in them no handle is rejected because the
walk from it has no end, and a walk from any node comes to an end within that budget. -/
theorem visits_descend :
    (∀ a : Arena, a.Descends →
        (∀ node child, a.Calls node child → a.header? child = none ∨ child.toNat < node.toNat) ∧
        ∀ root : Handle,
          (∀ visits, a.Nested (root :: visits) →
            ((root :: visits).filter fun visit ↦ (a.header? visit).isSome).length ≤
              root.toNat + 1) ∧
          ∀ t, ∃ u, ∀ budget, root.toNat + 2 ≤ budget → a.visit budget root t = some u) ∧
      ∀ a : Arena, a.Reachable →
        a.Descends ∧ (∀ root t, (a.walk root t).1 ≠ .error (.endless root)) ∧
        ∀ root t, (a.header? root).isSome →
          ∃ u, a.visit (root.toNat + 2) root (t.report (.walking root)) = some u ∧
            a.walk root t = (.ok (), u.report (.collected (u.found.size - t.found.size))) := by
  constructor
  · intro a ha
    refine ⟨fun _ _ h ↦ header?_eq_none_or_lt_of_calls ha h, fun root ↦ ⟨fun visits h ↦ ?_, ?_⟩⟩
    · exact Nat.le_trans (length_visits_le ha h) (a.height_le_toNat_succ root)
    · intro t
      obtain ⟨u, hu⟩ := exists_visit_toNat ha root t
      exact ⟨u, fun budget hle ↦ visit_of_le _ budget root t u hu hle⟩
  · intro a hreachable
    have ha := hreachable.sound.descends
    refine ⟨ha, walk_ne_endless ha, fun root t hroot ↦ ?_⟩
    obtain ⟨n, hn⟩ := Option.isSome_iff_exists.1 hroot
    obtain ⟨u, hu⟩ := exists_visit_toNat ha root (t.report (.walking root))
    exact ⟨u, hu, walk_of_visit_within hn hu⟩

theorem descends_iff : a.Descends ↔ ∀ i < a.size, ∀ s ∈ a.shape? (.ofNat i),
    ∀ child ∈ s.children, a.header? child = none ∨ child.toNat < (Handle.ofNat i).toNat := by
  constructor
  · exact fun h i _ s hs child hchild ↦ h _ s hs child hchild
  · intro h node s hs child hchild
    have hlt := (isSome_header?_iff.1 (isSome_header?_of_shape? hs)).2
    have hnode := h node.toNat hlt s
    rw [Handle.ofNat_toNat] at hnode
    exact hnode hs child hchild

instance (a : Arena) : Decidable a.Descends :=
  decidable_of_iff _ descends_iff.symm

/-- An arena in which the argument of a rest element was replaced by a handle of no node, and a
header was added that shares the entry of the object pattern before it. -/
def patchedArena : Arena :=
  let added := Edit.arenaAfter {} [
    .add .nowhere (.identifier "a"),
    .add .nowhere (.rest (.ofNat 0)),
    .add .nowhere (.objectPattern [.ofNat 1])]
  (added.overwrite 0 (.rest (.ofNat 9))).pushHeader ⟨.arrayPattern, .nowhere, 0⟩ false

theorem visits_patchedArena :
    patchedArena.Descends ∧
      (∀ visits, patchedArena.Nested (.ofNat 3 :: visits) →
        ((.ofNat 3 :: visits).filter fun visit ↦ (patchedArena.header? visit).isSome).length ≤ 4) ∧
      (∃ u, ∀ budget, 5 ≤ budget → patchedArena.visit budget (.ofNat 3) {} = some u) ∧
      ∃ u, sharedArena.walk (.ofNat 1) {} = (.ok (), u) := by
  have hdescends : patchedArena.Descends := by decide +kernel
  have hreachable : sharedArena.Reachable := ⟨{}, _, .inl rfl, rfl⟩
  obtain ⟨-, hroots⟩ := visits_descend.1 patchedArena hdescends
  obtain ⟨hrows, hbudgets⟩ := hroots (.ofNat 3)
  obtain ⟨u, -, hwalk⟩ :=
    (visits_descend.2 sharedArena hreachable).2.2 (.ofNat 1) {} (by decide +kernel)
  exact ⟨hdescends, hrows, hbudgets {}, _, hwalk⟩

end BoundNames.Arena

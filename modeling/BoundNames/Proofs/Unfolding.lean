import BoundNames.Proofs.Extraction
import Mathlib.Data.Fintype.Card

/-!
# Arenas that unfold to one tree

An arena can hold a tree in many ways: its nodes in another order, with others between them, equal
subtrees as one node, names under other symbols. What a walk collects depends on none of this. If a
tree unfolds from a root (`Unfolds`), then a walk from the root comes to an end and collects
identifiers with the names and the spans that the tree binds (`Unfolds.exists_bound`), and so all
arenas that unfold to one tree give the same answers (`bound_eq_of_unfolds`), that of a lowered JSON
value among them.

Nothing is asked of the arena but that the tree unfolds: it may have been patched, and elsewhere in
it a walk may have no end. A node is as deep as its deepest child and one level more, so below a
node of some depth there is one of every smaller depth (`Deep.exists_deep`). These are different
nodes, hence no node is as deep as the arena is large (`Deep.lt_size`), and the budget of a walk is
enough.
-/

set_option autoImplicit false
set_option relaxedAutoImplicit false

namespace BoundNames

theorem isSome_mapM_iff {α β : Type} {f : α → Option β} {l : List α} :
    (l.mapM f).isSome ↔ ∀ x ∈ l, (f x).isSome := by
  induction l with
  | nil => simp
  | cons x others ih =>
    rw [List.forall_mem_cons, ← ih, List.mapM_cons]
    cases f x with
    | none => simp
    | some y => cases others.mapM f <;> simp

namespace Draft

/-- A draft has a tree if and only if each of its children has one. -/
theorem isSome_tree?_iff {draft : Draft} {span : Span} {child : Handle → Option (Option Tree)} :
    (Draft.tree? draft span child).isSome ↔ ∀ c ∈ draft.children, (child c).isSome := by
  cases draft with
  | arrayPattern elements =>
    rw [Shape.children, ← isSome_mapM_iff, tree?]
    cases elements.mapM child <;> simp
  | objectPattern entries =>
    rw [Shape.children, ← isSome_mapM_iff, tree?]
    cases entries.mapM child <;> simp
  | importing data =>
    have hspecifiers := isSome_mapM_iff (f := child) (l := data.specifiers)
    rw [Shape.children, List.forall_mem_append, ← hspecifiers, List.forall_mem_singleton, tree?]
    cases data.specifiers.mapM child <;> cases child data.source <;> simp
  | property data =>
    cases hkey : child data.key <;> cases hvalue : child data.value <;>
      simp [tree?, Shape.children, hkey, hvalue]
  | assignment data =>
    cases hleft : child data.left <;> cases hright : child data.right <;>
      simp [tree?, Shape.children, hleft, hright]
  | specifier form data =>
    cases himported : child data.imported <;> cases hlocal : child data.localName <;>
      simp [tree?, Shape.children, himported, hlocal]
  | rest argument => cases hargument : child argument <;> simp [tree?, Shape.children, hargument]
  | _ => simp [tree?, Shape.children]

theorem tree?_congr {draft : Draft} {span : Span} {child other : Handle → Option (Option Tree)}
    (h : ∀ c ∈ draft.children, child c = other c) :
    Draft.tree? draft span child = Draft.tree? draft span other := by
  have hlist : ∀ l : List Handle, (∀ c ∈ l, child c = other c) → l.mapM child = l.mapM other := by
    intro l hl
    induction l with
    | nil => rfl
    | cons c others ih =>
      rw [List.forall_mem_cons] at hl
      rw [List.mapM_cons, List.mapM_cons, hl.1, ih hl.2]
  cases draft with
  | arrayPattern elements => rw [tree?, tree?, hlist elements h]
  | objectPattern entries => rw [tree?, tree?, hlist entries h]
  | importing data =>
    rw [Shape.children, List.forall_mem_append, List.forall_mem_singleton] at h
    rw [tree?, tree?, hlist data.specifiers h.1, h.2]
  | _ => simp_all [tree?, Shape.children]

end Draft

namespace Arena

open BoundNames.Tree

variable {a : Arena}

/-! ### Larger budgets -/

theorem isSome_child?_iff {below : Handle → Option Tree} {child : Handle} :
    (child? below child).isSome ↔ child = .absent ∨ (below child).isSome := by
  by_cases h : child = .absent <;> simp [child?, Handle.isAbsent, h]

/-- A node unfolds if it says something and each of its children is absent or unfolds. -/
theorem isSome_tree?_succ_iff {budget : Nat} {node : Handle} :
    (a.tree? (budget + 1) node).isSome ↔ ∃ x, a.node? node = some x ∧
      ∀ child ∈ x.2.children, child = .absent ∨ (a.tree? budget child).isSome := by
  rw [tree?_succ]
  cases a.node? node with
  | none => simp
  | some x => simp [Draft.isSome_tree?_iff, isSome_child?_iff]

/-- What unfolds within a budget unfolds to the same tree within a larger one. -/
theorem tree?_of_le (budget : Nat) :
    ∀ larger node t, a.tree? budget node = some t → budget ≤ larger →
      a.tree? larger node = some t := by
  induction budget with
  | zero => exact fun _ _ _ h ↦ nomatch h
  | succ budget ih =>
    intro larger node t h hle
    obtain ⟨larger, rfl⟩ : ∃ k, larger = k + 1 := ⟨larger - 1, by omega⟩
    obtain ⟨x, hx, hchildren⟩ := isSome_tree?_succ_iff.1 (Option.isSome_of_eq_some h)
    rw [tree?_succ, hx, Option.bind_some] at h ⊢
    rw [← h]
    refine Draft.tree?_congr fun child hchild ↦ ?_
    rcases hchildren child hchild with rfl | hsome
    · rfl
    · obtain ⟨c, hc⟩ := Option.isSome_iff_exists.1 hsome
      rw [child?, child?, hc, ih larger child c hc (Nat.le_of_succ_le_succ hle)]

theorem isSome_tree?_of_le {budget larger : Nat} {node : Handle}
    (h : (a.tree? budget node).isSome) (hle : budget ≤ larger) : (a.tree? larger node).isSome := by
  obtain ⟨t, ht⟩ := Option.isSome_iff_exists.1 h
  exact Option.isSome_of_eq_some (tree?_of_le budget larger node t ht hle)

theorem isSome_header?_of_isSome_tree? {budget : Nat} {node : Handle}
    (h : (a.tree? budget node).isSome) : (a.header? node).isSome := by
  cases budget with
  | zero => cases h
  | succ budget =>
    obtain ⟨⟨span, draft⟩, hx, -⟩ := isSome_tree?_succ_iff.1 h
    obtain ⟨n, -, hn, -⟩ := node?_eq_some_iff.1 hx
    exact Option.isSome_of_eq_some hn

/-! ### Depths -/

/-- The tree under the node has as many levels below its root, and no fewer. -/
def Deep (a : Arena) (levels : Nat) (node : Handle) : Prop :=
  (a.tree? (levels + 1) node).isSome ∧ a.tree? levels node = none

theorem exists_deep_of_isSome {budget : Nat} {node : Handle} (h : (a.tree? budget node).isSome) :
    ∃ levels, a.Deep levels node := by
  induction budget with
  | zero => cases h
  | succ budget ih =>
    cases hbelow : a.tree? budget node with
    | none => exact ⟨budget, h, hbelow⟩
    | some t => exact ih (Option.isSome_of_eq_some hbelow)

namespace Deep

theorem le_of_deep {levels others : Nat} {node : Handle} (h : a.Deep levels node)
    (h' : a.Deep others node) : levels ≤ others := by
  by_contra hlt
  have hsome := isSome_tree?_of_le h'.1 (by omega : others + 1 ≤ levels)
  rw [h.2] at hsome
  cases hsome

/-- A node has one depth. -/
theorem unique {levels others : Nat} {node : Handle} (h : a.Deep levels node)
    (h' : a.Deep others node) : levels = others :=
  Nat.le_antisymm (h.le_of_deep h') (h'.le_of_deep h)

/-- Some child is one level less deep, or the node would be less deep itself. -/
theorem exists_child {levels : Nat} {node : Handle} (h : a.Deep (levels + 1) node) :
    ∃ child, a.Deep levels child := by
  obtain ⟨x, hx, hchildren⟩ := isSome_tree?_succ_iff.1 h.1
  by_contra hnone
  have hbelow : (a.tree? (levels + 1) node).isSome := by
    refine isSome_tree?_succ_iff.2 ⟨x, hx, fun child hchild ↦ ?_⟩
    refine (hchildren child hchild).imp_right fun hsome ↦ ?_
    rw [Option.isSome_iff_ne_none]
    exact fun heq ↦ hnone ⟨child, hsome, heq⟩
  rw [h.2] at hbelow
  cases hbelow

theorem exists_deep {levels : Nat} {node : Handle} (h : a.Deep levels node) :
    ∀ fewer ≤ levels, ∃ other, a.Deep fewer other := by
  induction levels generalizing node with
  | zero =>
    intro fewer hle
    obtain rfl := Nat.le_zero.1 hle
    exact ⟨node, h⟩
  | succ levels ih =>
    intro fewer hle
    obtain ⟨child, hchild⟩ := h.exists_child
    rcases Nat.le_succ_iff.1 hle with hle | rfl
    · exact ih hchild fewer hle
    · exact ⟨node, h⟩

/-- Nodes of different depths are different nodes, so there are as many as there are depths. -/
theorem lt_size {levels : Nat} {node : Handle} (h : a.Deep levels node) : levels < a.size := by
  have hall : ∀ i : Fin (levels + 1), ∃ other, a.Deep i other :=
    fun i ↦ h.exists_deep i (Nat.le_of_lt_succ i.isLt)
  choose nodeAt hnodeAt using hall
  have hlt : ∀ i, (nodeAt i).toNat < a.size :=
    fun i ↦ (isSome_header?_iff.1 (isSome_header?_of_isSome_tree? (hnodeAt i).1)).2
  have hinjective : Function.Injective fun i ↦ (⟨(nodeAt i).toNat, hlt i⟩ : Fin a.size) := by
    intro i j heq
    have hsame : nodeAt i = nodeAt j := Handle.toNat_inj.1 (Fin.mk.inj heq)
    exact Fin.ext ((hsame ▸ hnodeAt i).unique (hnodeAt j))
  have hcard := Fintype.card_le_of_injective _ hinjective
  rw [Fintype.card_fin, Fintype.card_fin] at hcard
  exact hcard

end Deep

/-- A budget for each node of the arena is enough for every tree. -/
theorem isSome_tree?_size {budget : Nat} {node : Handle} (h : (a.tree? budget node).isSome) :
    (a.tree? a.size node).isSome := by
  obtain ⟨levels, hdeep⟩ := exists_deep_of_isSome h
  exact isSome_tree?_of_le hdeep.1 hdeep.lt_size

/-! ### Visits where a tree unfolds -/

theorem isSome_tree?_of_mentions {budget : Nat} {node child : Handle} (h : a.Mentions node child)
    (hnode : (a.tree? (budget + 1) node).isSome) :
    child = .absent ∨ (a.tree? budget child).isSome := by
  obtain ⟨s, hs, hchild⟩ := h
  obtain ⟨⟨span, draft⟩, hx, hchildren⟩ := isSome_tree?_succ_iff.1 hnode
  obtain ⟨n, s', -, hs', -, rfl⟩ := node?_eq_some_iff.1 hx
  obtain rfl := Option.some.inj (hs.symm.trans hs')
  rw [Shape.children_mapName] at hchildren
  exact hchildren child hchild

theorem isSome_tree?_of_transGen {budget : Nat} {node child : Handle}
    (h : Relation.TransGen a.Mentions node child) (hnode : (a.tree? (budget + 1) node).isSome) :
    child = .absent ∨ (a.tree? budget child).isSome := by
  induction h with
  | single h => exact isSome_tree?_of_mentions h hnode
  | tail _ h ih =>
    rcases ih with rfl | hbetween
    · exact absurd h.isSome_header? (by simp [header?_absent])
    · cases budget with
      | zero => cases hbetween
      | succ budget =>
        exact (isSome_tree?_of_mentions h hbetween).imp_right fun hchild ↦
          isSome_tree?_of_le hchild (Nat.le_succ _)

/-- Where a tree unfolds, visits come to an end: each visit within another is of a node that unfolds
within a smaller budget, or of no node. -/
theorem exists_visit_of_isSome_tree? (larger : Nat) :
    ∀ budget node t, node = .absent ∨ (a.tree? budget node).isSome → budget < larger →
      ∃ u, a.visit larger node t = some u := by
  induction larger with
  | zero => exact fun _ _ _ _ hlt ↦ absurd hlt (Nat.not_lt_zero _)
  | succ larger ih =>
    intro budget node t hnode hlt
    rw [visit]
    refine exists_foldlM_eq_some (fun t step hstep ↦ ?_) t
    cases step with
    | bind identifier => exact ⟨_, rfl⟩
    | report e => exact ⟨_, rfl⟩
    | visit child =>
      rcases hnode with rfl | hnode
      · rw [steps_of_header?_eq_none a.header?_absent] at hstep
        cases hstep
      · cases budget with
        | zero => cases hnode
        | succ budget =>
          have hchild := isSome_tree?_of_transGen (transGen_of_visit_mem_steps hstep) hnode
          exact ih budget child t hchild (Nat.lt_of_succ_lt_succ hlt)

/-! ### What arenas with one tree have in common -/

/-- The tree is the one that the arena holds under the handle. -/
def Unfolds (a : Arena) (root : Handle) (t : Tree) : Prop :=
  ∃ budget, a.tree? budget root = some t

namespace Unfolds

variable {root : Handle} {t : Tree}

/-- A walk from where a tree unfolds collects identifiers with the names and the spans that the tree
binds. -/
theorem exists_bound (h : a.Unfolds root t) :
    ∃ found, a.bound root = .ok found ∧ List.Forall₂ a.Reads found.toList t.bindings := by
  obtain ⟨budget, hbudget⟩ := h
  have hsome := isSome_tree?_size (Option.isSome_of_eq_some hbudget)
  have htree : a.tree? a.size root = some t := by
    obtain ⟨t', ht'⟩ := Option.isSome_iff_exists.1 hsome
    have hmax := tree?_of_le a.size (max a.size budget) root t' ht' (Nat.le_max_left _ _)
    rw [tree?_of_le budget _ root t hbudget (Nat.le_max_right _ _)] at hmax
    rw [ht', hmax]
  obtain ⟨n, hn⟩ := Option.isSome_iff_exists.1 (isSome_header?_of_isSome_tree? hsome)
  obtain ⟨u, hu⟩ := exists_visit_of_isSome_tree? (a.size + 1) a.size root
    (Trail.report {} (.walking root)) (.inr hsome) (Nat.lt_succ_self _)
  have hfound := a.found_of_visit _ _ _ _ hu
  refine ⟨u.found, ?_, ?_⟩
  · simp only [bound, boundInto, walk_of_visit hn hu]
    rfl
  · rw [hfound]
    exact a.readsWithin a.size root t htree (a.size + 1) (Nat.le_succ _)

theorem boundNames_eq (h : a.Unfolds root t) :
    a.boundNames root = .ok (t.bindings.map Prod.fst) := by
  obtain ⟨found, hbound, hreads⟩ := h.exists_bound
  rw [boundNames, hbound]
  exact congrArg Except.ok (filterMap_name?_of_reads hreads)

end Unfolds

end Arena

namespace Extraction

open BoundNames.Tree
open Lowering (rootType lower)

/-- What a value with a type is lowered to unfolds to the tree of the value. -/
theorem unfolds_tree {v : Json} {type : String} (h : rootType v = .ok type)
    (hsize : ((lower v).run { arena := .prepared }).2.arena.size < Arena.nodeLimit) :
    ∃ arena root, (tree v).value = .ok (arena, root) ∧ arena.Unfolds root (ofJson v) := by
  refine ⟨_, _, tree_of_rootType_ok h, (ofJson v).size, ?_⟩
  rw [Lowering.fst_lower_eq_rootAt]
  exact (Lowering.laid_lower Arena.sound_prepared hsize).tree?_eq_some (Nat.le_refl _)

/-- The names of a value can be read off every arena that holds the tree of the value: whatever its
layout, its sharing and its symbols are, a walk from the root of the tree collects identifiers with
the names and the spans of those that are extracted from the value itself. More generally, arenas
that hold one tree give the same names and spans in the same order. -/
theorem bound_eq_of_unfolds :
    (∀ v type, rootType v = .ok type →
        ((lower v).run { arena := .prepared }).2.arena.size < Arena.nodeLimit →
          ∃ lowered loweredRoot extracted bindingNames,
            (tree v).value = .ok (lowered, loweredRoot) ∧
            lowered.Unfolds loweredRoot (ofJson v) ∧
            (identifiers v).value = .ok (lowered, extracted) ∧
            (names v).value = .ok bindingNames ∧
            ∀ (a : Arena) root, a.Unfolds root (ofJson v) →
              a.boundNames root = .ok bindingNames ∧
                ∃ found, a.bound root = .ok found ∧
                  found.toList.map (fun h ↦ (a.name? h, a.span? h)) =
                    extracted.toList.map (fun h ↦ (lowered.name? h, lowered.span? h))) ∧
      ∀ (a b : Arena) root root' t, a.Unfolds root t → b.Unfolds root' t →
        ∃ found found' bindingNames,
          a.bound root = .ok found ∧ b.bound root' = .ok found' ∧
          a.boundNames root = .ok bindingNames ∧ b.boundNames root' = .ok bindingNames ∧
          found.toList.map (fun h ↦ (a.name? h, a.span? h)) =
            found'.toList.map (fun h ↦ (b.name? h, b.span? h)) := by
  constructor
  · intro v type htype hsize
    obtain ⟨lowered, loweredRoot, htree, hunfolds⟩ := unfolds_tree htype hsize
    obtain ⟨arena, root, extracted, htree', hvalue, -, hextracted⟩ :=
      identifiers_of_rootType_ok htype hsize
    obtain ⟨rfl, rfl⟩ := Prod.mk.inj (Except.ok.inj (htree.symm.trans htree'))
    have hnames := names_of_reads hvalue hextracted
    refine ⟨lowered, loweredRoot, extracted, _, htree, hunfolds, hvalue, hnames, ?_⟩
    intro a root ha
    obtain ⟨found, hbound, hfound⟩ := ha.exists_bound
    rw [bindings_ofJson] at hfound
    refine ⟨?_, found, hbound, ?_⟩
    · rw [ha.boundNames_eq, bindings_ofJson]
    · rw [Arena.map_of_reads hfound, Arena.map_of_reads hextracted]
  · intro a b root root' t ha hb
    obtain ⟨found, hbound, hfound⟩ := ha.exists_bound
    obtain ⟨found', hbound', hfound'⟩ := hb.exists_bound
    refine ⟨found, found', _, hbound, hbound', ha.boundNames_eq, hb.boundNames_eq, ?_⟩
    rw [Arena.map_of_reads hfound, Arena.map_of_reads hfound']

/-- The value of the pattern `[x, ...x]`, whose two identifiers have no span. -/
def repeatedPattern : Json :=
  .object [("type", "ArrayPattern"), ("elements", .array [
    .object [("type", "Identifier"), ("name", "x")],
    .object [("type", "RestElement"), ("argument",
      .object [("type", "Identifier"), ("name", "x")])]])]

theorem unfolds_repeatedPattern {a : Arena} {root : Handle} (first rest argument : Handle)
    (hroot : a.node? root = some (.nowhere, .arrayPattern [first, rest]))
    (hfirst : a.node? first = some (.nowhere, .identifier "x"))
    (hrest : a.node? rest = some (.nowhere, .rest argument))
    (hargument : a.node? argument = some (.nowhere, .identifier "x")) :
    a.Unfolds root (ofJson repeatedPattern) := by
  have hchild : ∀ {below : Handle → Option Tree} {node : Handle} {x : Span × Draft},
      a.node? node = some x → Arena.child? below node = (below node).map some :=
    fun hnode ↦ if_neg (mt Handle.isAbsent_iff.1 (Arena.ne_absent_of_node? hnode))
  have htree : ofJson repeatedPattern = .arrayPattern .nowhere
      [some (.identifier .nowhere "x"), some (.rest .nowhere (some (.identifier .nowhere "x")))] :=
    rfl
  refine ⟨3, ?_⟩
  simp [Arena.tree?_succ, Draft.tree?, htree, hroot, hfirst, hrest, hargument, hchild hfirst,
    hchild hrest, hchild hargument]

/-- An arena that holds the same pattern with one node for both identifiers, between nodes that are
no part of it. -/
def sharedLayout : Arena :=
  Edit.arenaAfter {} [
    .add .nowhere (.identifier "unrelated"),
    .add .nowhere (.identifier "x"),
    .add .nowhere (.literal "0"),
    .add .nowhere (.rest (.ofNat 1)),
    .add .nowhere (.arrayPattern [.ofNat 1, .ofNat 3]),
    .add .nowhere (.arrayPattern [.ofNat 4, .ofNat 0])]

/-- An arena that holds the same pattern with its second element first. -/
def reversedLayout : Arena :=
  Edit.arenaAfter {} [
    .add .nowhere (.identifier "x"),
    .add .nowhere (.rest (.ofNat 0)),
    .add .nowhere (.identifier "x"),
    .add .nowhere (.arrayPattern [.ofNat 2, .ofNat 1])]

theorem bound_sharedLayout :
    sharedLayout.bound (.ofNat 4) = .ok #[.ofNat 1, .ofNat 1] ∧
      reversedLayout.bound (.ofNat 3) = .ok #[.ofNat 2, .ofNat 0] ∧
      (names repeatedPattern).value = .ok ["x", "x"] ∧
      sharedLayout.boundNames (.ofNat 4) = .ok ["x", "x"] ∧
      reversedLayout.boundNames (.ofNat 3) = .ok ["x", "x"] := by
  have hshared : sharedLayout.Unfolds (.ofNat 4) (ofJson repeatedPattern) := by
    apply unfolds_repeatedPattern (.ofNat 1) (.ofNat 3) (.ofNat 1) <;> decide +kernel
  have hreversed : reversedLayout.Unfolds (.ofNat 3) (ofJson repeatedPattern) := by
    apply unfolds_repeatedPattern (.ofNat 2) (.ofNat 1) (.ofNat 0) <;> decide +kernel
  have hsharedNames : sharedLayout.boundNames (.ofNat 4) = .ok ["x", "x"] := by decide +kernel
  obtain ⟨lowered, _, extracted, bindingNames, -, -, -, hnames, hall⟩ :=
    bound_eq_of_unfolds.1 repeatedPattern "ArrayPattern" rfl (by decide +kernel)
  obtain ⟨hsame, -⟩ := hall sharedLayout (.ofNat 4) hshared
  obtain ⟨-, -, _, -, -, hfirst, hsecond, -⟩ :=
    bound_eq_of_unfolds.2 sharedLayout reversedLayout _ _ _ hshared hreversed
  rw [hnames, hsecond, ← hfirst, ← hsame, hsharedNames]
  exact ⟨by decide +kernel, by decide +kernel, rfl, rfl, rfl⟩

end Extraction

end BoundNames

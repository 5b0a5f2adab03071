import BoundNames.Proofs.Extraction
import Mathlib.Data.List.Nodup
import Mathlib.Data.List.Pairwise
import Mathlib.Logic.Function.Iterate

/-!
# Parents

A new node is entered as the parent of the children it keeps, over whatever was entered for them
before. So the parent of a node is the last node that mentions it, and absent if none does
(`ParentExact`), after every run of edits and however nodes are shared (`Reachable.parentExact`).

In a lowered tree nothing is shared. The nodes of a block mention each node of the block but its
root, and each once (`Laid.mentioned_perm`), so the parents lead from every node to the root and
undo the relation of a node to its children (`IsTree`).
-/

set_option autoImplicit false
set_option relaxedAutoImplicit false

namespace BoundNames.Arena

/-! ### An addition enters parents -/

section Addition

variable {a : Arena} (ha : a.Sound) (span : Span) (draft : Draft)

include ha

/-- After an addition the new node has its stored shape and every other node the shape it had. -/
theorem shape?_add (hsize : a.size < UInt32.size - 1) (node : Handle) :
    (a.add span draft).2.shape? node =
      if node = .ofNat a.size then some (a.stored draft) else a.shape? node := by
  split
  · next hnew =>
    rw [hnew]
    exact shape?_add_self ha span draft hsize
  · next hold =>
    cases hn : a.header? node with
    | some n =>
      obtain ⟨s, hs⟩ := ha.exists_shape? hn
      rw [(extends_add a span draft).shape? hs, hs]
    | none =>
      -- There was no node at the handle and the new one is elsewhere.
      have hnone : (a.add span draft).2.header? node = none := by
        rw [← Option.not_isSome_iff_eq_none, isSome_header?_iff, size_add]
        rw [← Option.not_isSome_iff_eq_none, isSome_header?_iff] at hn
        rintro ⟨hnode, hlt⟩
        have heq : node.toNat = a.size := by
          by_contra hne
          exact hn ⟨hnode, by omega⟩
        exact hold (by rw [← heq, Handle.ofNat_toNat])
      rw [shape?, shape?, hnone, hn, Option.bind_none, Option.bind_none]

theorem mentions_add_iff (hsize : a.size < UInt32.size - 1) {node child : Handle} :
    (a.add span draft).2.Mentions node child ↔
      a.Mentions node child ∨ node = .ofNat a.size ∧ child ∈ (a.stored draft).children := by
  have hnew : a.shape? (.ofNat a.size) = none := by
    have hnone : a.header? (.ofNat a.size) = none := by
      rw [← Option.not_isSome_iff_eq_none, isSome_header?_iff,
        Handle.toNat_ofNat_of_lt (by omega)]
      exact fun h ↦ Nat.lt_irrefl _ h.2
    rw [shape?, hnone, Option.bind_none]
  unfold Mentions
  simp only [shape?_add ha span draft hsize]
  by_cases hnode : node = .ofNat a.size
  · subst hnode
    simp [hnew]
  · simp [hnode]

end Addition

/-- Entering a parent for children enters it for each of them that is a node. -/
theorem getElem?_foldl_adopt_of_mem (node : Handle) {children : List Handle}
    {parents : Array Handle} {child : Handle} (hchild : child ∈ children)
    (habsent : child ≠ .absent) (hsize : child.toNat < parents.size) :
    (children.foldl (adopt node) parents)[child.toNat]? = some node := by
  induction children generalizing parents with
  | nil => cases hchild
  | cons head others ih =>
    rw [List.foldl_cons]
    by_cases hothers : child ∈ others
    · refine ih hothers ?_
      rwa [← size_foldl_adopt node [head] parents] at hsize
    · -- No later child is the same, so what is entered for the head stays.
      obtain rfl : child = head := (List.mem_cons.1 hchild).resolve_right hothers
      have hne : ∀ c ∈ others, c = .absent ∨ c.toNat ≠ child.toNat := by
        intro c hc
        refine .inr fun heq ↦ hothers ?_
        rwa [← Handle.toNat_inj.1 heq]
      rw [getElem?_foldl_adopt node others _ hne, adopt,
        if_neg (mt Handle.isAbsent_iff.1 habsent)]
      exact Array.getElem?_setIfInBounds_self_of_lt hsize

theorem parent_of_ne_absent (a : Arena) {node : Handle} (h : node ≠ .absent) :
    a.parent node = (a.parents[node.toNat]?).getD .absent := by
  rw [parent, if_neg (mt Handle.isAbsent_iff.1 h)]

/-- An addition makes the new node the parent of the children it keeps and changes no other
parent. -/
theorem parent_add {a : Arena} (ha : a.Sound) (span : Span) (draft : Draft) {child : Handle}
    (habsent : child ≠ .absent) :
    (a.add span draft).2.parent child =
      if child ∈ (a.stored draft).children then .ofNat a.size else a.parent child := by
  rw [parent_of_ne_absent _ habsent, parent_of_ne_absent _ habsent, parents_add]
  split
  · next hchild =>
    have hlt : child.toNat < a.size := by
      rw [children_stored, List.mem_map] at hchild
      obtain ⟨c, -, rfl⟩ := hchild
      exact (a.eq_absent_or_toNat_keep_lt c).resolve_left habsent
    have hsize : child.toNat < (a.parents.push .absent).size := by
      rw [Array.size_push, ha.size_parents]
      omega
    rw [getElem?_foldl_adopt_of_mem _ hchild habsent hsize, Option.getD_some]
  · next hother =>
    have hne : ∀ c ∈ (a.stored draft).children, c = .absent ∨ c.toNat ≠ child.toNat := by
      intro c hc
      refine .inr fun heq ↦ hother ?_
      rwa [← Handle.toNat_inj.1 heq]
    rw [getElem?_foldl_adopt _ _ _ hne, Array.getElem?_push]
    split
    · next hlast => rw [hlast, Array.getElem?_size, Option.getD_some, Option.getD_none]
    · rfl

/-! ### The last node that mentions a node -/

/-- What is entered as the parent of a node is right. -/
structure ParentExact (a : Arena) (child : Handle) : Prop where
  /-- There is no parent if and only if no node mentions the child. -/
  absent_iff : a.parent child = .absent ↔ ∀ node, ¬ a.Mentions node child
  /-- Of the nodes that mention the child the parent is the last. -/
  last {node : Handle} (hnode : a.Mentions node child) :
    a.Mentions (a.parent child) child ∧ node.toNat ≤ (a.parent child).toNat

theorem ParentExact.add {a : Arena} (ha : a.Sound) (span : Span) (draft : Draft)
    (hsize : a.size < UInt32.size - 1) {child : Handle} (habsent : child ≠ .absent)
    (h : a.ParentExact child) : (a.add span draft).2.ParentExact child := by
  have hmentions : ∀ node, (a.add span draft).2.Mentions node child ↔
      a.Mentions node child ∨ node = .ofNat a.size ∧ child ∈ (a.stored draft).children :=
    fun _ ↦ mentions_add_iff ha span draft hsize
  have hparent := parent_add ha span draft habsent
  by_cases hchild : child ∈ (a.stored draft).children
  · -- The new node mentions the child, and it is the last of all nodes.
    have hword : (Handle.ofNat a.size).toNat = a.size := Handle.toNat_ofNat_of_lt (by omega)
    have hnew : Handle.ofNat a.size ≠ .absent := Handle.ne_absent_iff.2 (by omega)
    have hlast : (a.add span draft).2.Mentions (.ofNat a.size) child :=
      (hmentions _).2 (.inr ⟨rfl, hchild⟩)
    rw [if_pos hchild] at hparent
    refine ⟨?_, fun {node} hnode ↦ ?_⟩
    · rw [hparent]
      exact ⟨fun heq ↦ absurd heq hnew, fun hnone ↦ absurd hlast (hnone _)⟩
    · rw [hparent, hword]
      refine ⟨hlast, ?_⟩
      rcases (hmentions node).1 hnode with hold | ⟨rfl, -⟩
      · exact Nat.le_of_lt (isSome_header?_iff.1 hold.isSome_header?).2
      · exact Nat.le_of_eq hword
  · -- Nothing changes for the child.
    have hsame : ∀ node, (a.add span draft).2.Mentions node child ↔ a.Mentions node child :=
      fun node ↦ (hmentions node).trans (or_iff_left fun hnew ↦ hchild hnew.2)
    rw [if_neg hchild] at hparent
    constructor
    · simp only [hparent, hsame, h.absent_iff]
    · intro node hnode
      simp only [hparent, hsame] at hnode ⊢
      exact h.last hnode

/-- Parents are right after every run of edits that stays below the limit. -/
theorem Reachable.parentExact {a : Arena} (ha : a.Reachable) (hsize : a.size < nodeLimit)
    {child : Handle} (habsent : child ≠ .absent) : a.ParentExact child := by
  have hstart : ∀ t : SymbolTable, ParentExact { symbols := t } child := by
    intro t
    have hnone : ∀ node, ¬ Mentions { symbols := t } node child := by
      intro node hnode
      exact absurd (isSome_header?_iff.1 hnode.isSome_header?).2 (Nat.not_lt_zero _)
    refine ⟨⟨fun _ ↦ hnone, fun _ ↦ ?_⟩, fun hnode ↦ absurd hnode (hnone _)⟩
    rw [parent_of_ne_absent _ habsent]
    rfl
  have hlimit := nodeLimit_lt
  have hinvariant : a.Sound ∧ (a.size < nodeLimit → a.ParentExact child) := by
    refine ha.induction (P := fun a ↦ a.Sound ∧ (a.size < nodeLimit → a.ParentExact child))
      ⟨sound_empty, fun _ ↦ hstart _⟩ ⟨sound_prepared, fun _ ↦ hstart _⟩ ?_
    rintro b span draft ⟨hsound, hexact⟩
    refine ⟨hsound.add span draft, fun hsize ↦ ?_⟩
    rw [size_add] at hsize
    exact (hexact (by omega)).add hsound span draft (by omega) habsent
  exact hinvariant.2 hsize

/-! ### The mentions of a block -/

open BoundNames.Tree

/-- The children that a node mentions, absent ones left out. -/
def mentioned (a : Arena) (node : Handle) : List Handle :=
  match a.shape? node with
  | some s => s.children.filter fun child ↦ !child.isAbsent
  | none => []

/-- The children that the nodes of a block mention, node by node. -/
def mentionedFrom (a : Arena) (first count : Nat) : List Handle :=
  (List.range' first count).flatMap fun i ↦ a.mentioned (.ofNat i)

theorem mentioned_of_shape? {a : Arena} {node : Handle} {s : Shape Symbol}
    (hs : a.shape? node = some s) :
    a.mentioned node = s.children.filter fun child ↦ !child.isAbsent := by
  rw [mentioned, hs]

theorem mem_mentioned_iff {a : Arena} {node child : Handle} :
    child ∈ a.mentioned node ↔ a.Mentions node child ∧ child ≠ .absent := by
  cases hs : a.shape? node with
  | none => simp [mentioned, Mentions, hs]
  | some s => simp [mentioned, Mentions, hs, Handle.isAbsent]

theorem mentionedFrom_add (a : Arena) (first count others : Nat) :
    a.mentionedFrom first (count + others) =
      a.mentionedFrom first count ++ a.mentionedFrom (first + count) others := by
  rw [mentionedFrom, ← List.range'_append_1, List.flatMap_append]
  rfl

theorem mentionedFrom_succ (a : Arena) (first count : Nat) :
    a.mentionedFrom first (count + 1) =
      a.mentionedFrom first count ++ a.mentioned (.ofNat (first + count)) := by
  rw [mentionedFrom_add]
  simp [mentionedFrom]

mutual

/-- The nodes of a tree that is laid out mention each node of its block but the root, once. -/
theorem Laid.mentioned_perm {a : Arena} {base : Nat} {t : Tree} :
    a.Laid base t → (a.mentionedFrom base t.size).Perm
      ((List.range' base (sizeItems t.children)).map Handle.ofNat)
  | .node below root => by
    obtain ⟨s, hs, hchildren⟩ := (Laid.node below root).exists_shape
    have hroot : a.mentioned (.ofNat (base + sizeItems t.children)) =
        (handlesAt base t.children).filter fun child ↦ !child.isAbsent := by
      rw [← hchildren]
      exact mentioned_of_shape? hs
    rw [size_eq, mentionedFrom_succ, hroot]
    exact below.mentioned_perm

/-- The nodes of children that are laid out, and the node they are children of, mention each node of
their block once. -/
theorem LaidItems.mentioned_perm {a : Arena} {base : Nat} {items : List (Option Tree)} :
    a.LaidItems base items →
      (a.mentionedFrom base (sizeItems items) ++
        (handlesAt base items).filter fun child ↦ !child.isAbsent).Perm
        ((List.range' base (sizeItems items)).map Handle.ofNat)
  | .nil => .refl _
  | .hole tail => by
    simp only [sizeItems, sizeChild, Nat.zero_add]
    exact tail.mentioned_perm
  | @LaidItems.cons _ _ t others head tail => by
    have hpresent : (!(t.rootAt base).isAbsent) = true := by
      obtain ⟨s, hs, -⟩ := head.exists_shape
      have hnode := (isSome_header?_iff.1 (isSome_header?_of_shape? hs)).1
      simp [Handle.isAbsent, hnode]
    have hblock : List.range' base (t.size + sizeItems others) =
        List.range' base (sizeItems t.children) ++ [base + sizeItems t.children] ++
          List.range' (base + t.size) (sizeItems others) := by
      rw [← List.range'_append_1, size_eq, List.range'_1_concat]
    simp only [sizeItems, sizeChild, handlesAt]
    rw [mentionedFrom_add, List.filter_cons, if_pos hpresent, hblock, List.map_append,
      List.map_append]
    -- The root of the head is mentioned behind the nodes of the others, and belongs before them.
    refine .trans ?_ ((head.mentioned_perm.append_right [t.rootAt base]).append tail.mentioned_perm)
    rw [List.append_assoc, List.append_assoc]
    exact List.perm_middle.append_left _

end

/-! ### Arenas that hold one tree -/

/-- The nodes of the arena form one tree, and parents lead to its root. -/
structure IsTree (a : Arena) (root : Handle) : Prop where
  /-- The root is a node. -/
  isSome_root : (a.header? root).isSome
  /-- The root has no parent. -/
  parent_root : a.parent root = .absent
  /-- Every other node is mentioned by one node, once. -/
  mentioned_once {child : Handle} (hchild : (a.header? child).isSome) (hroot : child ≠ root) :
    ∃ node s, a.shape? node = some s ∧ s.children.count child = 1 ∧
      ∀ other, a.Mentions other child → other = node
  /-- The parent of a node is the node that mentions it. -/
  mentions_iff {node child : Handle} (hnode : node ≠ .absent) (hchild : child ≠ .absent) :
    a.Mentions node child ↔ a.parent child = node
  /-- From parent to parent every node leads to the root. -/
  exists_iterate {node : Handle} (hnode : (a.header? node).isSome) : ∃ k, a.parent^[k] node = root

section OneTree

variable {a : Arena} {last : Nat} (hsize : a.size = last + 1) (hlast : last < UInt32.size - 1)
  (hperm : (a.mentionedFrom 0 (last + 1)).Perm ((List.range' 0 last).map Handle.ofNat))

theorem Mentions.toNat_mem_range (hsize : a.size = last + 1) {node child : Handle}
    (h : a.Mentions node child) : node.toNat ∈ List.range' 0 (last + 1) := by
  have hlt := (isSome_header?_iff.1 h.isSome_header?).2
  rw [List.mem_range'_1]
  omega

theorem Mentions.mem_mentioned {node child : Handle} (h : a.Mentions node child)
    (habsent : child ≠ .absent) : child ∈ a.mentioned (.ofNat node.toNat) := by
  rw [Handle.ofNat_toNat]
  exact mem_mentioned_iff.2 ⟨h, habsent⟩

include hlast hperm

theorem nodup_mentionedFrom : (a.mentionedFrom 0 (last + 1)).Nodup := by
  rw [hperm.nodup_iff]
  refine List.Nodup.map_on (fun i hi j hj heq ↦ ?_) (List.nodup_range' 1)
  rw [List.mem_range'_1] at hi hj
  have hplaces := congrArg Handle.toNat heq
  rwa [Handle.toNat_ofNat_of_lt (by omega), Handle.toNat_ofNat_of_lt (by omega)] at hplaces

include hsize

/-- The nodes that are mentioned are those before the last. -/
theorem exists_mentions_iff {child : Handle} (habsent : child ≠ .absent) :
    (∃ node, a.Mentions node child) ↔ child.toNat < last := by
  constructor
  · rintro ⟨node, hnode⟩
    have hmem : child ∈ a.mentionedFrom 0 (last + 1) :=
      List.mem_flatMap.2 ⟨_, hnode.toNat_mem_range hsize, hnode.mem_mentioned habsent⟩
    obtain ⟨i, hi, rfl⟩ := List.mem_map.1 (hperm.mem_iff.1 hmem)
    rw [List.mem_range'_1] at hi
    rw [Handle.toNat_ofNat_of_lt (by omega)]
    omega
  · intro hlt
    have hmem : child ∈ (List.range' 0 last).map Handle.ofNat := by
      refine List.mem_map.2 ⟨child.toNat, ?_, Handle.ofNat_toNat child⟩
      rw [List.mem_range'_1]
      omega
    obtain ⟨i, -, hi⟩ := List.mem_flatMap.1 (hperm.mem_iff.2 hmem)
    exact ⟨_, (mem_mentioned_iff.1 hi).1⟩

theorem eq_of_mentions {node other child : Handle} (habsent : child ≠ .absent)
    (hnode : a.Mentions node child) (hother : a.Mentions other child) : node = other := by
  have hdisjoint := (List.nodup_flatMap.1 (nodup_mentionedFrom hlast hperm)).2
  have hsymm : Std.Symm (Function.onFun List.Disjoint fun i ↦ a.mentioned (.ofNat i)) :=
    ⟨fun _ _ h _ hx hy ↦ h hy hx⟩
  by_contra hne
  have hplaces : node.toNat ≠ other.toNat := mt Handle.toNat_inj.1 hne
  exact hdisjoint.forall (hnode.toNat_mem_range hsize) (hother.toNat_mem_range hsize) hplaces
    (hnode.mem_mentioned habsent) (hother.mem_mentioned habsent)

theorem count_children_eq_one {node child : Handle} {s : Shape Symbol}
    (hs : a.shape? node = some s) (hchild : child ∈ s.children) (habsent : child ≠ .absent) :
    s.children.count child = 1 := by
  have hmentions : a.Mentions node child := ⟨s, hs, hchild⟩
  have hnodup := (List.nodup_flatMap.1 (nodup_mentionedFrom hlast hperm)).1 node.toNat
    (hmentions.toNat_mem_range hsize)
  have hmem := hmentions.mem_mentioned habsent
  have hpresent : (!child.isAbsent) = true := by simp [Handle.isAbsent, habsent]
  rw [Handle.ofNat_toNat, mentioned_of_shape? hs] at hnodup hmem
  rw [← List.count_filter (p := fun child ↦ !child.isAbsent) hpresent]
  exact List.count_eq_one_of_mem hnodup hmem

/-- Every node but the last has a parent, which mentions it. -/
theorem mentions_parent {child : Handle} (hexact : a.ParentExact child)
    (hchild : (a.header? child).isSome) (hne : child ≠ .ofNat last) :
    a.Mentions (a.parent child) child := by
  obtain ⟨habsent, hlt⟩ := isSome_header?_iff.1 hchild
  have hplaces : child.toNat ≠ last := by
    intro heq
    exact hne (by rw [← heq, Handle.ofNat_toNat])
  obtain ⟨node, hnode⟩ := (exists_mentions_iff hsize hlast hperm habsent).2 (by omega)
  exact (hexact.last hnode).1

/-- A parent follows its children, so going from parent to parent ends at the last node. -/
theorem exists_iterate_parent (ha : a.Sound)
    (hexact : ∀ child, child ≠ .absent → a.ParentExact child) {node : Handle}
    (hnode : (a.header? node).isSome) : ∃ k, a.parent^[k] node = .ofNat last := by
  induction hdistance : a.size - node.toNat using Nat.strongRecOn generalizing node with
  | ind distance ih =>
    obtain ⟨habsent, hlt⟩ := isSome_header?_iff.1 hnode
    by_cases hne : node = .ofNat last
    · exact ⟨0, hne⟩
    · obtain ⟨s, hs, hmem⟩ := mentions_parent hsize hlast hperm (hexact node habsent) hnode hne
      have hbehind := (ha.children_lt hs hmem).resolve_left habsent
      obtain ⟨k, hk⟩ := ih (a.size - (a.parent node).toNat) (by omega)
        (isSome_header?_of_shape? hs) rfl
      exact ⟨k + 1, by rw [Function.iterate_succ_apply, hk]⟩

/-- An arena whose nodes mention each node but the last, once, is a tree with the last node as its
root. -/
theorem isTree_of_perm (ha : a.Sound) (hexact : ∀ child, child ≠ .absent → a.ParentExact child) :
    a.IsTree (.ofNat last) where
  isSome_root := by
    rw [isSome_header?_iff, Handle.ne_absent_iff, Handle.toNat_ofNat_of_lt (by omega)]
    omega
  parent_root := by
    have hroot : (Handle.ofNat last).toNat = last := Handle.toNat_ofNat_of_lt (by omega)
    have habsent : Handle.ofNat last ≠ .absent := Handle.ne_absent_iff.2 (by omega)
    rw [(hexact _ habsent).absent_iff]
    intro node hnode
    have hlt := (exists_mentions_iff hsize hlast hperm habsent).1 ⟨node, hnode⟩
    omega
  mentioned_once {child} hchild hne := by
    have habsent := (isSome_header?_iff.1 hchild).1
    obtain ⟨s, hs, hmem⟩ :=
      mentions_parent hsize hlast hperm (hexact child habsent) hchild hne
    exact ⟨_, s, hs, count_children_eq_one hsize hlast hperm hs hmem habsent,
      fun other hother ↦ eq_of_mentions hsize hlast hperm habsent hother ⟨s, hs, hmem⟩⟩
  mentions_iff {node child} hnode hchild := by
    constructor
    · intro h
      exact eq_of_mentions hsize hlast hperm hchild ((hexact child hchild).last h).1 h
    · rintro rfl
      by_contra hnot
      refine hnode ((hexact child hchild).absent_iff.2 fun other hother ↦ hnot ?_)
      exact ((hexact child hchild).last hother).1
  exists_iterate hnode := exists_iterate_parent hsize hlast hperm ha hexact hnode

end OneTree

theorem reachable_lower (v : Json) :
    (Lowering.lower v { arena := .prepared }).2.arena.Reachable := by
  refine ⟨prepared, [.lower v], .inr rfl, ?_⟩
  change _ = (Edit.applyAll [.lower v] { arena := .prepared }).2.arena
  rw [Edit.snd_applyAll_cons]
  rfl

/-- The arena of a lowered value is a tree. -/
theorem isTree_lower {v : Json}
    (hsize : (Lowering.lower v { arena := .prepared }).2.arena.size < nodeLimit) :
    (Lowering.lower v { arena := .prepared }).2.arena.IsTree
      (Lowering.lower v { arena := .prepared }).1 := by
  have hreachable := reachable_lower v
  have hlaid := Lowering.laid_lower (s := { arena := .prepared }) sound_prepared hsize
  have hperm := hlaid.mentioned_perm
  have hnodes : (Lowering.lower v { arena := .prepared }).2.arena.size =
      sizeItems (ofJson v).children + 1 := by
    rw [Lowering.size_lower, size_eq]
    exact Nat.zero_add _
  have hlast : sizeItems (ofJson v).children < UInt32.size - 1 := by
    have hlimit := nodeLimit_lt
    omega
  have hroot : (Lowering.lower v { arena := .prepared }).1 =
      .ofNat (sizeItems (ofJson v).children) := by
    rw [Lowering.fst_lower_eq_rootAt, rootAt]
    exact congrArg Handle.ofNat (Nat.zero_add _)
  rw [size_eq] at hperm
  rw [hroot]
  exact isTree_of_perm hnodes hlast hperm hreachable.sound fun _ ↦ hreachable.parentExact hsize

/-- After every run of edits that stays below the limit, the parent of a node is the last node that
mentions it, and absent if no node does. The arena of a lowered value is a tree: each node but the
root is mentioned once, by its parent, and parents lead from every node to the root, which has
none. -/
theorem parents_exact :
    (∀ a : Arena, a.Reachable → a.size < nodeLimit →
        ∀ child, (a.header? child).isSome → a.ParentExact child) ∧
      ∀ v type, Lowering.rootType v = .ok type →
        ((Lowering.lower v).run { arena := .prepared }).2.arena.size < nodeLimit →
          ∃ arena root, (Extraction.tree v).value = .ok (arena, root) ∧ arena.IsTree root := by
  constructor
  · intro a ha hsize child hchild
    exact ha.parentExact hsize (isSome_header?_iff.1 hchild).1
  · intro v type htype hsize
    exact ⟨_, _, Extraction.tree_of_rootType_ok htype, isTree_lower hsize⟩

/-- A run in which an identifier stands twice in a pattern and twice in a specifier, and a rest
element has a child that is not there. -/
def adoptingEdits : List Edit :=
  [.add .nowhere (.identifier "a"),
    .pattern .arrayPattern .nowhere [.ofNat 0, .ofNat 0],
    .specifier .importSpecifier .nowhere ⟨.ofNat 0, .ofNat 0⟩,
    .add .nowhere (.rest (.ofNat 3))]

theorem parents_adoptingEdits :
    (Edit.arenaAfter {} adoptingEdits).parent (.ofNat 0) = .ofNat 2 ∧
      (Edit.arenaAfter {} adoptingEdits).ParentExact (.ofNat 0) ∧
      ∃ arena root, (Extraction.tree Lowering.holedPattern).value = .ok (arena, root) ∧
        arena.IsTree root := by
  have htype : Lowering.rootType Lowering.holedPattern = .ok "ArrayPattern" := rfl
  exact ⟨by decide +kernel,
    parents_exact.1 _ ⟨{}, adoptingEdits, .inl rfl, rfl⟩ (by decide +kernel) _ (by decide +kernel),
    parents_exact.2 _ _ htype (by decide +kernel)⟩

end BoundNames.Arena

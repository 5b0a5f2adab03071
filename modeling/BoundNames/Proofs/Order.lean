import BoundNames.Proofs.Extraction
import BoundNames.Proofs.Marks
import Mathlib.Data.List.Perm.Subperm

/-!
# The order of extracted identifiers

The identifiers that a visit collects are among its marks, and the root of a tree that is laid out
marks positions of the block of the tree in increasing order. So a visit of a lowered value collects
identifiers in increasing order (`Lowering.ascends_lower`).

Hence extraction gives handles in increasing order, none of them twice and none behind the root,
and no more of them than there are identifiers (`identifiers_increasing`).
-/

set_option autoImplicit false
set_option relaxedAutoImplicit false

namespace BoundNames

namespace Arena

/-- Identifiers in increasing order are no more than the entries of their pool: the rank of a node
in its family increases with its position. -/
theorem Sound.length_le_count {a : Arena} (ha : a.Sound) {handles : List Handle}
    (hincreasing : handles.Pairwise (· < ·))
    (hidentifiers : ∀ h ∈ handles, ∃ symbol, a.shape? h = some (.identifier symbol)) :
    handles.length ≤ a.pools.count .identifiers := by
  have hheader : ∀ h ∈ handles, ∃ n,
      a.headers[h.toNat]? = some n ∧ n.kind.family = .identifiers := by
    intro h hh
    obtain ⟨symbol, hs⟩ := hidentifiers h hh
    obtain ⟨n, hn, hshape⟩ := Option.bind_eq_some_iff.1 hs
    refine ⟨n, ((header?_eq_some_iff _ _ _).1 hn).2, ?_⟩
    rw [← Pools.kind_of_shape? hshape]
    rfl
  have hranks : (handles.map fun h ↦ a.rank .identifiers h.toNat).Pairwise (· < ·) := by
    rw [List.pairwise_map]
    refine hincreasing.imp_of_mem fun {x y} hx _ hlt ↦ ?_
    obtain ⟨n, hn, hfamily⟩ := hheader x hx
    rw [← hfamily]
    exact rank_lt_rank hn (Handle.lt_iff_toNat_lt.1 hlt)
  have hsubset : (handles.map fun h ↦ a.rank .identifiers h.toNat) ⊆
      List.range (a.pools.count .identifiers) := by
    intro r hr
    obtain ⟨h, hh, rfl⟩ := List.mem_map.1 hr
    obtain ⟨n, hn, hfamily⟩ := hheader h hh
    rw [List.mem_range, ← hfamily]
    exact (ha.slot_eq hn).1
  have hnodup : (handles.map fun h ↦ a.rank .identifiers h.toNat).Nodup :=
    hranks.imp Nat.ne_of_lt
  have hle := (hnodup.subperm hsubset).length_le
  rwa [List.length_map, List.length_range] at hle

end Arena

/-- A visit of a lowered value collects handles of its block in increasing order, up to the root. -/
theorem Lowering.ascends_lower {s : Session} (hs : s.arena.Sound) {v : Json}
    (hsize : (lower v s).2.arena.size < Arena.nodeLimit) :
    Ascends s.arena.size ((lower v s).1.toNat + 1)
      ((lower v s).2.arena.bindersOf (lower v s).1) := by
  have hwords : s.arena.size + (Tree.ofJson v).size ≤ UInt32.size := by
    rw [size_lower] at hsize
    exact Nat.le_of_lt (Nat.lt_trans hsize Arena.nodeLimit_lt)
  rw [fst_lower_eq_rootAt, Tree.toNat_rootAt hwords, Arena.bindersOf]
  exact (laid_lower hs hsize).ascends hwords _

namespace Extraction

open Lowering (rootType lower)

/-- The handles that are extracted from a value stand in increasing order, whatever the order of the
fields in its objects. None stands twice, none is behind the root, and there are no more of them
than identifiers in the arena. -/
theorem identifiers_increasing {v : Json} {type : String} (h : rootType v = .ok type)
    (hsize : ((lower v).run { arena := .prepared }).2.arena.size < Arena.nodeLimit) :
    ∃ arena root handles, (tree v).value = .ok (arena, root) ∧
      (identifiers v).value = .ok (arena, handles) ∧
      handles.toList.Pairwise (· < ·) ∧ handles.toList.Nodup ∧
      (∀ node ∈ handles, node.toNat ≤ root.toNat) ∧
      handles.size ≤ arena.pools.identifiers.size := by
  obtain ⟨arena, root, handles, htree, hvalue, hhandles, -⟩ := identifiers_of_rootType_ok h hsize
  obtain ⟨rfl, rfl⟩ := Prod.mk.inj (Except.ok.inj ((tree_of_rootType_ok h).symm.trans htree))
  have hsound := Lowering.sound_lower (s := { arena := .prepared }) Arena.sound_prepared v
  have hascends := Lowering.ascends_lower (s := { arena := .prepared }) Arena.sound_prepared hsize
  rw [← hhandles] at hascends
  refine ⟨_, _, handles, htree, hvalue, hascends.increasing, ?_, ?_, ?_⟩
  · refine hascends.increasing.imp fun hlt heq ↦ ?_
    rw [Handle.lt_iff_toNat_lt, heq] at hlt
    exact Nat.lt_irrefl _ hlt
  · intro node hnode
    exact Nat.le_of_lt_succ (hascends.within (Array.mem_toList_iff.2 hnode)).2
  · rw [← Array.length_toList]
    refine hsound.length_le_count hascends.increasing fun node hnode ↦ ?_
    rw [hhandles] at hnode
    exact Arena.exists_symbol_of_mem_bindersOf hsound.descends hnode

/-- The value of the pattern `{ k: a = d, ...b }`, with the fields of its objects in an order other
than that in which they are read. -/
def scrambledPattern : Json :=
  .object [("properties", .array [
      .object [
        ("value", .object [
          ("right", .object [("name", "d"), ("type", "Identifier")]),
          ("left", .object [("name", "a"), ("type", "Identifier")]),
          ("type", "AssignmentPattern")]),
        ("key", .object [("name", "k"), ("type", "Identifier")]),
        ("type", "Property")],
      .object [
        ("argument", .object [("name", "b"), ("type", "Identifier")]),
        ("type", "RestElement")]]),
    ("type", "ObjectPattern")]

theorem identifiers_scrambledPattern :
    (identifiers scrambledPattern).value.map Prod.snd = .ok #[.ofNat 1, .ofNat 5] ∧
      ∃ arena root handles, (tree scrambledPattern).value = .ok (arena, root) ∧
        (identifiers scrambledPattern).value = .ok (arena, handles) ∧
        handles.toList.Pairwise (· < ·) ∧ handles.toList.Nodup ∧
        (∀ node ∈ handles, node.toNat ≤ root.toNat) ∧
        handles.size ≤ arena.pools.identifiers.size := by
  have htype : rootType scrambledPattern = .ok "ObjectPattern" := rfl
  exact ⟨by decide +kernel, identifiers_increasing htype (by decide +kernel)⟩

end Extraction

end BoundNames

import BoundNames.Extraction
import BoundNames.Proofs.Relocation
import Mathlib.Data.List.GetD

/-!
# Trees in one arena

Values that are lowered one after the other into one arena are laid out in blocks, one behind the
other (`forest_eq_storeItems`). A block holds what the arena of its value alone holds, a number of
positions further on (`Laid.node?_shift`), whatever stands before it and behind it. So a value binds
in the common arena what it binds alone, with every handle shifted by the number of nodes before the
value (`bound_forest`).
-/

set_option autoImplicit false
set_option relaxedAutoImplicit false

namespace BoundNames

/-- The handle of the node that stands a number of positions behind another. -/
def Handle.shift (distance : Nat) (h : Handle) : Handle :=
  if h.isAbsent then .absent else .ofNat (h.toNat + distance)

theorem Handle.shift_absent (distance : Nat) : shift distance .absent = .absent := rfl

theorem Handle.shift_of_ne {h : Handle} (hh : h ≠ .absent) (distance : Nat) :
    h.shift distance = .ofNat (h.toNat + distance) := by
  rw [shift, if_neg (mt isAbsent_iff.1 hh)]

namespace Tree

/-! ### Blocks further on -/

theorem rootAt_add {base : Nat} {t : Tree} (h : base + t.size < UInt32.size) (distance : Nat) :
    t.rootAt (base + distance) = (t.rootAt base).shift distance := by
  rw [size_eq] at h
  have hword : (Handle.ofNat (base + sizeItems t.children)).toNat = base + sizeItems t.children :=
    Handle.toNat_ofNat_of_lt (by omega)
  rw [rootAt, rootAt, Handle.shift_of_ne, hword, Nat.add_right_comm]
  exact Handle.ne_absent_iff.2 (by omega)

theorem handlesAt_add {base : Nat} {items : List (Option Tree)}
    (h : base + sizeItems items < UInt32.size) (distance : Nat) :
    handlesAt (base + distance) items = (handlesAt base items).map (Handle.shift distance) := by
  induction items generalizing base with
  | nil => rfl
  | cons item others ih =>
    cases item with
    | none =>
      simp only [sizeItems, sizeChild, Nat.zero_add] at h
      rw [handlesAt, handlesAt, ih h, List.map_cons, Handle.shift_absent]
    | some t =>
      simp only [sizeItems, sizeChild, ← Nat.add_assoc] at h
      rw [handlesAt, handlesAt, List.map_cons, rootAt_add (by omega), Nat.add_right_comm, ih h]

theorem sizeItems_take_add_size_le {items : List (Option Tree)} {i : Nat} {t : Tree}
    (hi : items[i]? = some (some t)) : sizeItems (items.take i) + t.size ≤ sizeItems items := by
  obtain ⟨hlt, hget⟩ := List.getElem?_eq_some_iff.1 hi
  have hsplit := congrArg sizeItems (List.take_append_drop i items)
  rw [sizeItems_append, List.drop_eq_getElem_cons hlt, hget] at hsplit
  simp only [sizeItems, sizeChild] at hsplit
  omega

theorem mapChildren_draft {f : Handle → Handle} (hf : f .absent = .absent) (t : Tree)
    (handles : List Handle) : (t.draft handles).mapChildren f = t.draft (handles.map f) := by
  have hget : ∀ i, f (handles.getD i .absent) = (handles.map f).getD i .absent := by
    intro i
    rw [← List.getD_map _ _ f, hf]
  cases t <;> simp only [draft, Shape.mapChildren, hget, List.map_take]

end Tree

namespace Arena

open BoundNames.Tree

mutual

/-- A tree that is laid out in two arenas has the same nodes in both, those of the second as far
behind those of the first as its block is. -/
theorem Laid.node?_shift {a b : Arena} {base distance : Nat} {t : Tree} :
    a.Laid base t → b.Laid (base + distance) t → base + t.size < UInt32.size →
      ∀ {i : Nat}, base ≤ i → i < base + t.size → ∀ {span : Span} {draft : Draft},
        a.node? (.ofNat i) = some (span, draft) →
          b.node? (.ofNat (i + distance)) = some (span, draft.mapChildren (Handle.shift distance))
  | .node below root, .node below' root', hsize, i, hfirst, hlast, span, draft, hnode => by
    rw [size_eq] at hsize hlast
    by_cases hi : i = base + sizeItems t.children
    · subst hi
      obtain ⟨rfl, rfl⟩ := Prod.mk.inj (Option.some.inj (root.symm.trans hnode))
      rw [mapChildren_draft (Handle.shift_absent _), ← handlesAt_add (by omega),
        Nat.add_right_comm]
      exact root'
    · exact below.node?_shift below' (by omega) hfirst (by omega) hnode

theorem LaidItems.node?_shift {a b : Arena} {base distance : Nat} {items : List (Option Tree)} :
    a.LaidItems base items → b.LaidItems (base + distance) items →
      base + sizeItems items < UInt32.size → ∀ {i : Nat}, base ≤ i → i < base + sizeItems items →
        ∀ {span : Span} {draft : Draft}, a.node? (.ofNat i) = some (span, draft) →
          b.node? (.ofNat (i + distance)) = some (span, draft.mapChildren (Handle.shift distance))
  | .nil, _, _, _, hfirst, hlast, _, _, _ => absurd hlast (Nat.not_lt_of_le hfirst)
  | .hole tail, .hole tail', hsize, _, hfirst, hlast, _, _, hnode => by
    simp only [sizeItems, sizeChild, Nat.zero_add] at hsize hlast
    exact tail.node?_shift tail' hsize hfirst hlast hnode
  | .cons (t := t) head tail, .cons head' tail', hsize, i, hfirst, hlast, _, _, hnode => by
    simp only [sizeItems, sizeChild, ← Nat.add_assoc] at hsize hlast
    rw [Nat.add_right_comm] at tail'
    by_cases hi : i < base + t.size
    · exact head.node?_shift head' (by omega) hfirst hi hnode
    · exact tail.node?_shift tail' hsize (by omega) hlast hnode

end

/-- The arena of a tree alone is relocated into every arena that the tree is laid out in. -/
theorem Laid.relocates {a b : Arena} {t : Tree} {distance : Nat} (ha : a.Laid 0 t)
    (hb : b.Laid distance t) (hsize : a.size = t.size) (hword : t.size < UInt32.size) :
    Relocates (Handle.shift distance) a b where
  absent := rfl
  node? {node span draft} hnode := by
    obtain ⟨n, -, hn, -⟩ := node?_eq_some_iff.1 hnode
    obtain ⟨habsent, hlt⟩ := isSome_header?_iff.1 (Option.isSome_of_eq_some hn)
    rw [← Handle.ofNat_toNat node] at hnode
    rw [Handle.shift_of_ne habsent]
    rw [← Nat.zero_add distance] at hb
    exact ha.node?_shift hb (by omega) (Nat.zero_le _) (by omega) hnode

/-- A tree that is laid out among others binds what it binds alone, with its handles shifted. -/
theorem Laid.bound_shift {a b : Arena} {t : Tree} {distance : Nat} (ha : a.Sound) (hb : b.Descends)
    (hlaid : a.Laid 0 t) (hlaid' : b.Laid distance t) (hsize : a.size = t.size)
    (hwords : distance + t.size < UInt32.size) :
    ∃ found shifted, a.bound (t.rootAt 0) = .ok found ∧ b.bound (t.rootAt distance) = .ok shifted ∧
      shifted.toList.map Handle.toNat = found.toList.map (fun h ↦ h.toNat + distance) ∧
      shifted.toList.map (fun h ↦ (b.name? h, b.span? h)) =
        found.toList.map (fun h ↦ (a.name? h, a.span? h)) := by
  have hrelocates := hlaid.relocates hlaid' hsize (by omega)
  obtain ⟨span, draft, hnode⟩ : ∃ span draft, a.node? (t.rootAt 0) = some (span, draft) := by
    cases hlaid with
    | node _ root => exact ⟨_, _, root⟩
  obtain ⟨n, -, hn, -⟩ := node?_eq_some_iff.1 hnode
  obtain ⟨n', -, hn', -⟩ := node?_eq_some_iff.1 (hrelocates.node? hnode)
  have hbound := bound_of_header? hb hn'
  rw [← rootAt_add (by omega), Nat.zero_add] at hbound
  have hbinders := hrelocates.bindersOf ha hb hnode
  rw [← rootAt_add (by omega), Nat.zero_add] at hbinders
  refine ⟨_, _, bound_of_header? ha.descends hn, hbound, ?_, ?_⟩
  · rw [hbinders, List.map_map]
    refine List.map_congr_left fun h hh ↦ ?_
    obtain ⟨symbol, hs⟩ := exists_symbol_of_mem_bindersOf ha.descends hh
    obtain ⟨habsent, hlt⟩ := isSome_header?_iff.1 (isSome_header?_of_shape? hs)
    rw [Function.comp_apply, Handle.shift_of_ne habsent, Handle.toNat_ofNat_of_lt (by omega)]
  · rw [hbinders, List.map_map]
    refine List.map_congr_left fun h hh ↦ ?_
    obtain ⟨symbol, hs⟩ := exists_symbol_of_mem_bindersOf ha.descends hh
    obtain ⟨hname, hspan⟩ := hrelocates.name?_and_span? hs
    exact Prod.ext hname hspan

/-- The children of a list that is laid out are laid out each behind those before it. -/
theorem LaidItems.getElem? {a : Arena} {base i : Nat} {items : List (Option Tree)} {t : Tree}
    (h : a.LaidItems base items) (hi : items[i]? = some (some t)) :
    a.Laid (base + sizeItems (items.take i)) t ∧
      (handlesAt base items)[i]? = some (t.rootAt (base + sizeItems (items.take i))) := by
  induction items generalizing base i with
  | nil => simp at hi
  | cons item others ih =>
    cases h with
    | hole tail =>
      cases i with
      | zero => simp at hi
      | succ i =>
        simpa [handlesAt, sizeItems, sizeChild] using ih tail (by simpa using hi)
    | cons head tail =>
      cases i with
      | zero =>
        obtain rfl : _ = t := by simpa using hi
        exact ⟨head, rfl⟩
      | succ i =>
        simpa [handlesAt, sizeItems, sizeChild, Nat.add_assoc] using ih tail (by simpa using hi)

end Arena

namespace Extraction

open Lowering (lower ActsAs)
open BoundNames.Tree

theorem mapM_lower_actsAs_store (values : List Json) :
    ActsAs (values.mapM lower) (storeItems (values.map fun v ↦ some (ofJson v))) := by
  induction values with
  | nil => exact ActsAs.pure _
  | cons v others ih =>
    rw [List.mapM_cons, List.map_cons, storeItems, storeChild]
    exact (Lowering.lower_actsAs_store v).bind fun _ ↦ ih.bind fun _ ↦ ActsAs.pure _

/-- Lowering values in turn does what storing their trees in turn does. -/
theorem forest_eq_storeItems (values : List Json) :
    forest values = storeItems (values.map fun v ↦ some (ofJson v)) .prepared :=
  (mapM_lower_actsAs_store values { arena := .prepared }).symm

theorem sizeItems_eq_size_forest (values : List Json) :
    sizeItems (values.map fun v ↦ some (ofJson v)) = (forest values).2.size := by
  rw [forest_eq_storeItems, size_storeItems]
  exact (Nat.zero_add _).symm

theorem sound_forest (values : List Json) : (forest values).2.Sound := by
  rw [forest_eq_storeItems]
  exact (builds_storeItems _ _).sound Arena.sound_prepared

theorem forest_singleton (v : Json) :
    (forest [v]).1 = [(ofJson v).rootAt 0] ∧ (forest [v]).2.size = (ofJson v).size := by
  rw [← sizeItems_eq_size_forest, forest_eq_storeItems, fst_storeItems]
  exact ⟨rfl, rfl⟩

/-- Below the limit each value is laid out behind the nodes of the values before it. -/
theorem laid_forest {values : List Json} (hsize : (forest values).2.size < Arena.nodeLimit)
    {i : Nat} {v : Json} (hv : values[i]? = some v) :
    (forest values).2.Laid (forest (values.take i)).2.size (ofJson v) ∧
      (forest values).1[i]? = some ((ofJson v).rootAt (forest (values.take i)).2.size) ∧
      (forest (values.take i)).2.size + (ofJson v).size ≤ (forest values).2.size := by
  have hempty : Arena.prepared.size = 0 := rfl
  have hitem : (values.map fun v ↦ some (ofJson v))[i]? = some (some (ofJson v)) := by simp [hv]
  rw [← sizeItems_eq_size_forest] at hsize
  rw [← sizeItems_eq_size_forest, ← sizeItems_eq_size_forest, forest_eq_storeItems, fst_storeItems,
    List.map_take]
  rw [← Nat.zero_add (sizeItems _), ← hempty] at hsize
  obtain ⟨hblock, hroot⟩ := (laid_storeItems Arena.sound_prepared hsize).getElem? hitem
  rw [hempty, Nat.zero_add] at hblock
  rw [hempty, Nat.zero_add] at hroot
  exact ⟨hblock, hroot, sizeItems_take_add_size_le hitem⟩

/-- A value in an arena with others binds what it binds alone, wherever it stands among them: the
handles are shifted by the number of nodes before the value, and have the same names and spans. -/
theorem bound_forest {values : List Json} (hsize : (forest values).2.size < Arena.nodeLimit) :
    (forest values).1.length = values.length ∧
      ∀ i v, values[i]? = some v → ∃ root aloneRoot found aloneFound,
        (forest values).1[i]? = some root ∧ (forest [v]).1 = [aloneRoot] ∧
        (forest values).2.bound root = .ok found ∧ (forest [v]).2.bound aloneRoot = .ok aloneFound ∧
        found.toList.map Handle.toNat =
          aloneFound.toList.map (fun h ↦ h.toNat + (forest (values.take i)).2.size) ∧
        found.toList.map (fun h ↦ ((forest values).2.name? h, (forest values).2.span? h)) =
          aloneFound.toList.map (fun h ↦ ((forest [v]).2.name? h, (forest [v]).2.span? h)) := by
  constructor
  · rw [forest_eq_storeItems, length_storeItems, List.length_map]
  · intro i v hv
    have hlimit := Arena.nodeLimit_lt
    obtain ⟨hblock, hroot, hend⟩ := laid_forest hsize hv
    obtain ⟨haloneRoot, haloneSize⟩ := forest_singleton v
    have haloneLimit : (forest [v]).2.size < Arena.nodeLimit := by omega
    have halone : (forest [v]).2.Laid 0 (ofJson v) := (laid_forest haloneLimit (i := 0) rfl).1
    have hdescends := (sound_forest values).descends
    obtain ⟨aloneFound, found, haloneBound, hbound, hhandles, hreads⟩ :=
      halone.bound_shift (sound_forest [v]) hdescends hblock haloneSize (by omega)
    exact ⟨_, _, found, aloneFound, hroot, haloneRoot, hbound, haloneBound, hhandles, hreads⟩

/-- A value that is no node, a pattern with a hole, and an identifier with a name of the pattern. -/
def mixedValues : List Json :=
  [.null, Lowering.holedPattern, .object [("type", "Identifier"), ("name", "a")]]

theorem bound_mixedValues :
    (forest mixedValues).2.bound (.ofNat 4) = .ok #[.ofNat 1, .ofNat 2] ∧
      ∃ root aloneRoot found aloneFound,
        (forest mixedValues).1[1]? = some root ∧
        (forest [Lowering.holedPattern]).1 = [aloneRoot] ∧
        (forest mixedValues).2.bound root = .ok found ∧
        (forest [Lowering.holedPattern]).2.bound aloneRoot = .ok aloneFound ∧
        found.toList.map Handle.toNat = aloneFound.toList.map (fun h ↦ h.toNat + 1) ∧
        found.toList.map (fun h ↦
            ((forest mixedValues).2.name? h, (forest mixedValues).2.span? h)) =
          aloneFound.toList.map (fun h ↦
            ((forest [Lowering.holedPattern]).2.name? h,
              (forest [Lowering.holedPattern]).2.span? h)) := by
  have hsize : (forest mixedValues).2.size < Arena.nodeLimit := by decide +kernel
  have hbefore : (forest (mixedValues.take 1)).2.size = 1 := by decide +kernel
  have hshift := (bound_forest hsize).2 1 Lowering.holedPattern rfl
  rw [hbefore] at hshift
  exact ⟨by decide +kernel, hshift⟩

end Extraction

end BoundNames

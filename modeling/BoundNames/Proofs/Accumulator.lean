import BoundNames.Proofs.TreeBindings

/-!
# Walks into an accumulator

There are several ways to ask for the identifiers under a root: a walk goes on along a trail, a
caller keeps the list that is added to or hands one over and gets it back, and the names can be
asked for alone. They reject the same roots for the same cause and then leave what was collected as
it is (`Rejects`); under all other roots they find the same identifiers and add them at the end,
whatever was collected before (`Finds`). A root is rejected if and only if it is absent or its
position is not below the size of the arena (`rejects_or_finds`). So one call adds what is found
under its root (`found_walk`), and calls one after the other add what is found under each root, in
their order (`toList_foldl`).
-/

set_option autoImplicit false
set_option relaxedAutoImplicit false

namespace BoundNames.Arena

/-- However the identifiers under the root are asked for, the root is rejected and nothing is
collected. -/
structure Rejects (a : Arena) (root : Handle) (cause : Rejection) : Prop where
  walk (t : Trail) : (a.walk root t).1 = .error cause ∧ (a.walk root t).2.found = t.found
  collectInto (kept : Array Handle) : a.collectInto root kept = (.error cause, kept)
  boundInto (into : Array Handle) : a.boundInto root into = .error cause
  bound : a.bound root = .error cause
  boundNames : a.boundNames root = .error cause

/-- However the identifiers under the root are asked for, the same ones are added to the end of what
was collected, and each has its name among the names. -/
structure Finds (a : Arena) (root : Handle) (found : Array Handle) : Prop where
  walk (t : Trail) : (a.walk root t).1 = .ok () ∧ (a.walk root t).2.found = t.found ++ found
  collectInto (kept : Array Handle) : a.collectInto root kept = (.ok (), kept ++ found)
  boundInto (into : Array Handle) : a.boundInto root into = .ok (into ++ found)
  bound : a.bound root = .ok found
  boundNames : ∃ names, a.boundNames root = .ok names ∧
    names.map some = found.toList.map a.name?

variable {a : Arena} {root : Handle}

/-! ### Rejected roots -/

theorem walk_of_checkRoot_error {cause : Rejection} (h : a.checkRoot root = .error cause)
    (t : Trail) : a.walk root t = (.error cause, t.report (.walking root)) := by
  simp only [Arena.walk, h]

theorem rejects_of_checkRoot {cause : Rejection} (h : a.checkRoot root = .error cause) :
    a.Rejects root cause := by
  have hwalk := walk_of_checkRoot_error h
  have hinto : ∀ into, a.boundInto root into = .error cause := by
    intro into
    simp only [Arena.boundInto, hwalk, Except.map]
  refine ⟨fun t ↦ ?_, fun kept ↦ ?_, hinto, hinto #[], ?_⟩
  · rw [hwalk]
    exact ⟨rfl, rfl⟩
  · simp only [Arena.collectInto, hwalk, Trail.report]
  · rw [Arena.boundNames, Arena.bound, hinto]
    rfl

theorem checkRoot_absent (a : Arena) : a.checkRoot .absent = .error .absent := rfl

theorem checkRoot_of_size_le (habsent : root ≠ .absent) (hsize : a.size ≤ root.toNat) :
    a.checkRoot root = .error (.dangling root a.size) := by
  have hnone : a.header? root = none := by
    rw [← Option.not_isSome_iff_eq_none, isSome_header?_iff]
    exact fun h ↦ absurd h.2 (Nat.not_lt_of_le hsize)
  rw [checkRoot, if_neg (mt Handle.isAbsent_iff.1 habsent), hnone]
  rfl

/-! ### Roots under which identifiers are found -/

/-- Identifiers have names, so no name is left out. -/
theorem map_some_namesOf {handles : Array Handle} (h : ∀ node ∈ handles, (a.name? node).isSome) :
    (a.namesOf handles).map some = handles.toList.map a.name? := by
  rw [namesOf, List.map_filterMap_some_eq_filter_map_isSome, List.filter_eq_self]
  intro name hname
  obtain ⟨node, hnode, rfl⟩ := List.mem_map.1 hname
  exact h node (Array.mem_toList_iff.1 hnode)

theorem isSome_name?_of_mem_bindersOf (ha : a.Descends) {node : Handle}
    (hnode : node ∈ a.bindersOf root) : (a.name? node).isSome := by
  obtain ⟨symbol, hs⟩ := exists_symbol_of_mem_bindersOf ha hnode
  rw [name?_of_shape? hs]
  rfl

/-- Under a node of a descending arena the identifiers that a visit collects are found. -/
theorem finds_of_header? (ha : a.Descends) {n : Header} (hroot : a.header? root = some n) :
    a.Finds root (a.bindersOf root).toArray := by
  have hwalk : ∀ t, (a.walk root t).1 = .ok () ∧
      (a.walk root t).2.found = t.found ++ (a.bindersOf root).toArray := by
    intro t
    obtain ⟨hok, hfound⟩ := walk_of_header? ha hroot t
    refine ⟨hok, Array.toList_inj.1 ?_⟩
    rw [hfound, Array.toList_append]
  have hinto : ∀ into, a.boundInto root into = .ok (into ++ (a.bindersOf root).toArray) := by
    intro into
    simp only [Arena.boundInto, (hwalk _).1, (hwalk _).2, Except.map]
  have hbound : a.bound root = .ok (a.bindersOf root).toArray := bound_of_header? ha hroot
  refine ⟨hwalk, fun kept ↦ ?_, hinto, hbound, _, ?_, map_some_namesOf fun node hnode ↦ ?_⟩
  · simp only [Arena.collectInto, (hwalk _).1, (hwalk _).2]
  · rw [Arena.boundNames, hbound]
    rfl
  · exact isSome_name?_of_mem_bindersOf ha (List.mem_toArray.1 hnode)

/-- A root is rejected if it is absent or its position is not below the size, and for no other
cause. -/
theorem rejects_or_finds (ha : a.Descends) (root : Handle) :
    (root = .absent → a.Rejects root .absent) ∧
      (root ≠ .absent → a.size ≤ root.toNat → a.Rejects root (.dangling root a.size)) ∧
      (root ≠ .absent → root.toNat < a.size → ∃ found, a.Finds root found) := by
  refine ⟨?_, fun habsent hsize ↦ ?_, fun habsent hsize ↦ ?_⟩
  · rintro rfl
    exact rejects_of_checkRoot a.checkRoot_absent
  · exact rejects_of_checkRoot (checkRoot_of_size_le habsent hsize)
  · obtain ⟨n, hn⟩ := Option.isSome_iff_exists.1 (isSome_header?_iff.2 ⟨habsent, hsize⟩)
    exact ⟨_, finds_of_header? ha hn⟩

/-! ### Roots in turn -/

/-- The identifiers under a root, none under one that is rejected. -/
def foundUnder (a : Arena) (root : Handle) : List Handle :=
  match a.bound root with
  | .ok found => found.toList
  | .error _ => []

/-- A walk adds what is found under its root, also if that is rejected. -/
theorem found_walk (ha : a.Descends) (root : Handle) (t : Trail) :
    (a.walk root t).2.found.toList = t.found.toList ++ a.foundUnder root := by
  obtain ⟨habsent, hdangling, hfinds⟩ := rejects_or_finds ha root
  by_cases hroot : root = .absent
  · rw [((habsent hroot).walk t).2, foundUnder, (habsent hroot).bound, List.append_nil]
  · by_cases hsize : root.toNat < a.size
    · obtain ⟨found, hfound⟩ := hfinds hroot hsize
      rw [(hfound.walk t).2, foundUnder, hfound.bound, Array.toList_append]
    · have hrejects := hdangling hroot (Nat.le_of_not_lt hsize)
      rw [(hrejects.walk t).2, foundUnder, hrejects.bound, List.append_nil]

theorem found_collectInto (ha : a.Descends) (root : Handle) (kept : Array Handle) :
    (a.collectInto root kept).2.toList = kept.toList ++ a.foundUnder root :=
  found_walk ha root { found := kept }

/-- If one call adds what is found under its root, calls in turn add what is found under each. -/
theorem toList_foldl {State : Type} (collected : State → Array Handle)
    {call : State → Handle → State}
    (hcall : ∀ s root, (collected (call s root)).toList =
      (collected s).toList ++ a.foundUnder root) (roots : List Handle) (s : State) :
    (collected (roots.foldl call s)).toList =
      (collected s).toList ++ roots.flatMap a.foundUnder := by
  induction roots generalizing s with
  | nil => simp
  | cons root others ih =>
    rw [List.foldl_cons, ih, hcall, List.flatMap_cons, List.append_assoc]

/-- In a reachable arena every way to ask for identifiers rejects an absent root as absent and one
whose position is not below the size as dangling, and leaves what was collected as it is. Under
every other root they all find the same identifiers, whatever was collected before, and add them at
the end. So roots in turn add what is found under each that is not rejected, in their order. -/
theorem collected_appends (ha : a.Reachable) :
    (∀ root : Handle, (root = .absent → a.Rejects root .absent) ∧
        (root ≠ .absent → a.size ≤ root.toNat → a.Rejects root (.dangling root a.size)) ∧
        (root ≠ .absent → root.toNat < a.size → ∃ found, a.Finds root found)) ∧
      ∀ roots : List Handle,
        (∀ t : Trail, (roots.foldl (fun t root ↦ (a.walk root t).2) t).found.toList =
          t.found.toList ++ roots.flatMap a.foundUnder) ∧
        ∀ kept, (roots.foldl (fun kept root ↦ (a.collectInto root kept).2) kept).toList =
          kept.toList ++ roots.flatMap a.foundUnder := by
  have hdescends := ha.sound.descends
  refine ⟨rejects_or_finds hdescends, fun roots ↦ ⟨fun t ↦ ?_, fun kept ↦ ?_⟩⟩
  · exact toList_foldl Trail.found (fun t root ↦ found_walk hdescends root t) roots t
  · exact toList_foldl id (fun kept root ↦ found_collectInto hdescends root kept) roots kept

/-- A pattern, no node, a node that is not there, and an identifier. -/
def mixedRoots : List Handle :=
  [.ofNat 1, .absent, .ofNat 7, .ofNat 0]

theorem collected_mixedRoots :
    sharedArena.Rejects .absent .absent ∧
      sharedArena.Rejects (.ofNat 7) (.dangling (.ofNat 7) 2) ∧
      (∃ found, sharedArena.Finds (.ofNat 1) found) ∧
      (mixedRoots.foldl (fun kept root ↦ (sharedArena.collectInto root kept).2)
        #[.ofNat 9, .absent]).toList =
          [.ofNat 9, .absent, .ofNat 0, .ofNat 0, .ofNat 0] := by
  have hreachable : sharedArena.Reachable := ⟨{}, _, .inl rfl, rfl⟩
  have hsize : sharedArena.size = 2 := by decide +kernel
  obtain ⟨hroots, hturns⟩ := collected_appends hreachable
  refine ⟨(hroots .absent).1 rfl, ?_, (hroots (.ofNat 1)).2.2 (by decide) ?_, ?_⟩
  · rw [← hsize]
    exact (hroots (.ofNat 7)).2.1 (by decide) (by rw [hsize]; decide)
  · rw [hsize]
    decide
  · rw [(hturns mixedRoots).2]
    decide +kernel

end BoundNames.Arena

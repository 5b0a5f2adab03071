import BoundNames.Proofs.Accumulator
import BoundNames.Proofs.Names
import BoundNames.Proofs.Nesting

/-!
# What walks collect in any arena

A patched arena need not be sound: a header may have a kind and a slot that nothing was stored for,
an entry of a pool may name nodes that are not there, and a symbol may be one of another table. Even
so each handle that a walk collects is `Usable`: it names an identifier, the identifier has its
data, and so it has a name. No invariant is at hand for this. A visit collects a node only where it
has read the shape of an identifier from it (`exists_symbol_of_bind_mem_steps`), and what it has
read is there.

So no name is missing among the names under a root, whatever the arena (`collected_usable`).
-/

set_option autoImplicit false
set_option relaxedAutoImplicit false

namespace BoundNames.Arena

variable {a : Arena}

/-- The handle names an identifier that has its data. -/
structure Usable (a : Arena) (node : Handle) : Prop where
  ne_absent : node ≠ .absent
  lt_size : node.toNat < a.size
  /-- The header is that of an identifier, and its slot is a place of the pool of identifiers. -/
  exists_header : ∃ n, a.header? node = some n ∧ n.kind = .identifier ∧ n.slot ≠ Header.noSlot ∧
    n.slot.toNat < a.pools.identifiers.size
  /-- There is a name: the one of the symbol, or the empty name if the table has none for it. -/
  exists_name : ∃ symbol, a.symbol? node = some symbol ∧
    (∀ name, a.symbols.name? symbol = some name → a.name? node = some name) ∧
    (a.symbols.size ≤ symbol.toNat → a.name? node = some "")

theorem usable_of_shape? {node : Handle} {symbol : Symbol}
    (hs : a.shape? node = some (.identifier symbol)) : a.Usable node := by
  have hname := name?_of_shape? hs
  obtain ⟨n, hn, hshape⟩ := Option.bind_eq_some_iff.1 hs
  obtain ⟨habsent, hlt⟩ := isSome_header?_iff.1 (Option.isSome_of_eq_some hn)
  have hkind : n.kind = .identifier := (Pools.kind_of_shape? hshape).symm
  rw [Pools.shape?_eq_payload?] at hshape
  split at hshape
  · next hdata =>
    have hslot : n.slot.toNat < a.pools.count n.kind.family := by
      rw [← Nat.not_le, ← Pools.payload?_eq_none_iff, hshape]
      simp
    rw [hkind] at hslot
    refine ⟨habsent, hlt, ⟨n, hn, hkind, of_decide_eq_true hdata, hslot⟩, symbol,
      symbol?_eq_some_iff.2 hs, fun name h ↦ ?_, fun hforeign ↦ ?_⟩
    · rw [hname, SymbolTable.name, h, Option.getD_some]
    · rw [hname, SymbolTable.name, SymbolTable.name?, Array.getElem?_eq_none hforeign,
        Option.getD_none]
  · cases hshape

theorem Usable.isSome_name? {node : Handle} (h : a.Usable node) : (a.name? node).isSome := by
  obtain ⟨symbol, hsymbol, -⟩ := h.exists_name
  rw [name?, hsymbol]
  rfl

/-! ### What a visit collects -/

theorem bind_not_mem_entrySteps (a : Arena) (entry node : Handle) :
    Step.bind node ∉ a.entrySteps entry := by
  unfold entrySteps
  split
  · exact List.not_mem_nil
  · split <;> simp

/-- A visit collects a node only where the shape of the node is that of an identifier: the node
itself or, in place of a rest element, its argument. -/
theorem exists_symbol_of_bind_mem_steps {node identifier : Handle}
    (h : Step.bind identifier ∈ a.steps node) :
    ∃ symbol, a.shape? identifier = some (.identifier symbol) := by
  rcases a.steps_eq_nil_or_stepsAt node with hnil | ⟨subject, n, hn, -, hsteps⟩
  · rw [hnil] at h
    cases h
  · rw [hsteps] at h
    unfold stepsAt at h
    split at h
    · next symbol hs =>
      obtain rfl : identifier = subject := by simpa using h
      exact ⟨symbol, by rw [shape?, hn, Option.bind_some, hs]⟩
    · simp at h
    · -- An object pattern collects nothing itself, also where an entry is an identifier.
      obtain ⟨entry, -, hentry⟩ := List.mem_flatMap.1 h
      exact absurd hentry (a.bind_not_mem_entrySteps entry identifier)
    all_goals simp at h

theorem usable_of_mem_binders (budget : Nat) :
    ∀ node, ∀ identifier ∈ a.binders budget node, a.Usable identifier := by
  induction budget with
  | zero => exact fun _ _ h ↦ nomatch h
  | succ budget ih =>
    intro node identifier h
    rw [binders_succ] at h
    obtain ⟨step, hstep, hmem⟩ := List.mem_flatMap.1 h
    cases step with
    | bind found =>
      obtain rfl := List.mem_singleton.1 hmem
      obtain ⟨symbol, hs⟩ := exists_symbol_of_bind_mem_steps hstep
      exact usable_of_shape? hs
    | visit child => exact ih child identifier hmem
    | report e => cases hmem

/-- A visit that comes to an end adds usable handles to its trail. -/
theorem usable_of_visit {budget : Nat} {node : Handle} {t u : Trail}
    (h : a.visit budget node t = some u) :
    ∃ found, u.found.toList = t.found.toList ++ found ∧ ∀ x ∈ found, a.Usable x :=
  ⟨_, a.found_of_visit budget node t u h, usable_of_mem_binders budget node⟩

theorem usable_of_walk (a : Arena) (root : Handle) (t : Trail) :
    ∃ found, (a.walk root t).2.found.toList = t.found.toList ++ found ∧
      ∀ x ∈ found, a.Usable x := by
  unfold walk
  dsimp only
  split
  · exact ⟨[], (List.append_nil _).symm, fun _ h ↦ nomatch h⟩
  · split
    · exact ⟨[], (List.append_nil _).symm, fun _ h ↦ nomatch h⟩
    · next u hu =>
      obtain ⟨found, hfound, husable⟩ := usable_of_visit hu
      exact ⟨found, hfound, husable⟩

theorem usable_of_bound {root : Handle} {found : Array Handle} (h : a.bound root = .ok found) :
    ∀ node ∈ found, a.Usable node := by
  obtain ⟨added, hadded, husable⟩ := a.usable_of_walk root {}
  change (a.walk root {}).1.map (fun _ ↦ (a.walk root {}).2.found) = .ok found at h
  cases houtcome : (a.walk root {}).1 with
  | error e =>
    rw [houtcome] at h
    cases h
  | ok _ =>
    rw [houtcome] at h
    obtain rfl : (a.walk root {}).2.found = found := Except.ok.inj h
    rw [List.nil_append] at hadded
    intro node hnode
    rw [← Array.mem_toList_iff, hadded] at hnode
    exact husable node hnode

/-- Whatever the state of an arena, a visit that comes to an end within some budget adds only
handles that name identifiers with their data. A walk from a node is such a visit if there is one,
and it never adds a handle of another sort. So the names under a root are the names of the handles
under it, one for each and in their order. -/
theorem collected_usable (a : Arena) (root : Handle) :
    (∀ budget t u, a.visit budget root t = some u →
        ∃ found, u.found.toList = t.found.toList ++ found ∧ ∀ node ∈ found, a.Usable node) ∧
      (∀ budget t u, (a.header? root).isSome →
        a.visit budget root (t.report (.walking root)) = some u →
          a.walk root t = (.ok (), u.report (.collected (u.found.size - t.found.size)))) ∧
      (∀ t, ∃ found, (a.walk root t).2.found.toList = t.found.toList ++ found ∧
        ∀ node ∈ found, a.Usable node) ∧
      ∀ found, a.bound root = .ok found →
        (∀ node ∈ found, a.Usable node) ∧
          ∃ names, a.boundNames root = .ok names ∧ names.length = found.size ∧
            names.map some = found.toList.map a.name? := by
  refine ⟨fun _ _ _ h ↦ usable_of_visit h, fun budget t u hroot h ↦ ?_, a.usable_of_walk root,
    fun found h ↦ ?_⟩
  · obtain ⟨n, hn⟩ := Option.isSome_iff_exists.1 hroot
    exact walk_of_visit_within hn h
  · have husable := usable_of_bound h
    have hnames := map_some_namesOf fun node hnode ↦ (husable node hnode).isSome_name?
    refine ⟨husable, a.namesOf found, ?_, ?_, hnames⟩
    · rw [boundNames, h]
      rfl
    · simpa using congrArg List.length hnames

/-- An array pattern whose elements were replaced by headers that were added as they stand: an
identifier with a symbol of another table, one without data, one whose slot is beyond its pool, a
rest element, and a handle of no node. -/
def strayArena : Arena :=
  let added := Edit.arenaAfter {} [
    .add .nowhere (.identifier "a"),
    .add .nowhere (.rest (.ofNat 0)),
    .add .nowhere (.arrayPattern [])]
  let foreign := (added.pushSymbol ⟨99⟩).pushHeader ⟨.identifier, .nowhere, 1⟩ false
  let bare := foreign.pushHeader ⟨.identifier, .nowhere, Header.noSlot⟩ false
  let beyond := bare.pushHeader ⟨.identifier, .nowhere, 7⟩ true
  beyond.overwrite 0 (.arrayPattern [.ofNat 3, .ofNat 4, .ofNat 5, .ofNat 1, .ofNat 9])

theorem collected_strayArena :
    strayArena.bound (.ofNat 2) = .ok #[.ofNat 3, .ofNat 0] ∧
      strayArena.Usable (.ofNat 3) ∧ strayArena.Usable (.ofNat 0) ∧
      strayArena.boundNames (.ofNat 2) = .ok ["", "a"] := by
  have hbound : strayArena.bound (.ofNat 2) = .ok #[.ofNat 3, .ofNat 0] := by decide +kernel
  obtain ⟨-, -, -, hnames⟩ := collected_usable strayArena (.ofNat 2)
  obtain ⟨husable, names, hbinds, -, hmap⟩ := hnames _ hbound
  have heq : names.map some = ["", "a"].map some := by
    rw [hmap]
    decide +kernel
  obtain rfl := List.map_injective_iff.2 (Option.some_injective _) heq
  exact ⟨hbound, husable _ (by simp), husable _ (by simp), hbinds⟩

end BoundNames.Arena

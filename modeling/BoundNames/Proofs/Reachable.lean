import BoundNames.Edit
import BoundNames.Proofs.Invariant
import BoundNames.Proofs.Storing
import Mathlib.Algebra.GroupWithZero.Nat
import Mathlib.Logic.ExistsUnique

/-!
# Reachable arenas

`Reachable` arenas are those that a run of edits leads to from one without nodes. An edit adds
nodes, takes all nodes away or changes nothing (`Edit.arena_apply`), so a property that additions
keep holds of every reachable arena (`Reachable.induction`), and all of them are sound
(`Reachable.sound`).

Below `nodeLimit` nodes each word of a sound arena stands for its place, and the invariant becomes
that of `WellFormed`: the nodes of a family have the slots `0, 1, 2, …` of their pool, each entry of
a pool belongs to one node, and no node lacks its data. `wellFormed_arenaAfter` is this for every
run.
-/

set_option autoImplicit false
set_option relaxedAutoImplicit false

namespace BoundNames

namespace Edit

/-- The arena that edits leave of the one they start from. -/
def arenaAfter (start : Arena) (edits : List Edit) : Arena :=
  ((applyAll edits).run { arena := start }).2.arena

theorem builds_addChecked (span : Span) (outcome : Except Misuse Draft) (s : Session) :
    s.arena.Builds (addChecked span outcome s).2.arena := by
  cases outcome with
  | ok draft => exact .add .refl span draft
  | error cause => exact .refl

/-- An edit that takes no nodes away adds nodes or changes nothing. -/
theorem builds_apply {e : Edit} (he : e ≠ .clear) (s : Session) :
    s.arena.Builds (e.apply s).2.arena := by
  cases e with
  | add span draft => exact .add .refl span draft
  | pattern kind span elements => exact builds_addChecked span _ s
  | specifier kind span data => exact builds_addChecked span _ s
  | lower v =>
    change s.arena.Builds (Lowering.lower v s).2.arena
    rw [Lowering.arena_lower]
    exact Tree.builds_store _ _
  | clear => exact absurd rfl he

/-- An edit adds nodes or leaves no nodes and no names. -/
theorem arena_apply (e : Edit) (s : Session) :
    s.arena.Builds (e.apply s).2.arena ∨ (e.apply s).2.arena = {} := by
  by_cases he : e = .clear
  · subst he
    exact .inr rfl
  · exact .inl (builds_apply he s)

theorem snd_applyAll_cons (e : Edit) (edits : List Edit) (s : Session) :
    (applyAll (e :: edits) s).2 = (applyAll edits (e.apply s).2).2 := by
  rw [applyAll, List.mapM_cons]
  rfl

/-- A run of edits that takes no nodes away is a run of additions. -/
theorem builds_applyAll {edits : List Edit} (h : ∀ e ∈ edits, e ≠ .clear) (s : Session) :
    s.arena.Builds (applyAll edits s).2.arena := by
  induction edits generalizing s with
  | nil => exact .refl
  | cons e edits ih =>
    rw [snd_applyAll_cons]
    exact (builds_apply (h e List.mem_cons_self) s).trans
      (ih (fun e he ↦ h e (List.mem_cons_of_mem _ he)) (e.apply s).2)

/-- What holds of the arena without nodes and names and is kept by additions is kept by a run of
edits. -/
theorem applyAll_preserves {P : Arena → Prop} (hempty : P {})
    (hadd : ∀ a span draft, P a → P (Arena.add a span draft).2) (edits : List Edit) :
    ∀ s : Session, P s.arena → P (applyAll edits s).2.arena := by
  induction edits with
  | nil => exact fun _ hs ↦ hs
  | cons e edits ih =>
    intro s hs
    rw [snd_applyAll_cons]
    apply ih
    rcases arena_apply e s with hbuilds | hclear
    · exact hbuilds.preserves hadd hs
    · rw [hclear]
      exact hempty

end Edit

namespace Arena

/-- A run of edits leads to the arena from one without nodes, whose table holds no names or the
common ones. -/
def Reachable (a : Arena) : Prop :=
  ∃ start edits, (start = {} ∨ start = prepared) ∧ a = Edit.arenaAfter start edits

/-- What holds of the arenas without nodes and is kept by additions holds of all that are
reachable. -/
theorem Reachable.induction {P : Arena → Prop} (hempty : P {}) (hprepared : P prepared)
    (hadd : ∀ a span draft, P a → P (add a span draft).2) {a : Arena} (ha : a.Reachable) : P a := by
  obtain ⟨start, edits, hstart, rfl⟩ := ha
  apply Edit.applyAll_preserves hempty hadd
  rcases hstart with rfl | rfl
  · exact hempty
  · exact hprepared

/-- An arena without nodes is sound if its table is not larger than that of the common names. -/
theorem sound_of_symbols {t : SymbolTable} (ht : t.size ≤ 21) : Sound { symbols := t } where
  size_parents := rfl
  slots_eq f := by cases f <;> rfl
  children_lt {node} _ hs := by
    simp [shape?, header?] at hs
  symbol_lt h := by simp at h
  size_symbols_le := ht

theorem sound_empty : Sound {} :=
  sound_of_symbols (by decide)

theorem sound_prepared : Sound prepared :=
  sound_of_symbols (SymbolTable.size_internAll_le {} SymbolTable.commonNames)

theorem Reachable.sound {a : Arena} (ha : a.Reachable) : a.Sound :=
  ha.induction sound_empty sound_prepared fun _ span draft h ↦ h.add span draft

/-! ### Below the limit -/

/-- So many nodes leave a word for each handle and each slot, and, with the empty name and the
common ones, for each symbol. -/
def nodeLimit : Nat := UInt32.size - 21

theorem nodeLimit_lt : nodeLimit < UInt32.size := by decide

/-- The parts of an arena fit together: each entry of a pool belongs to one node, each node has its
data, children precede their parents, and each identifier has a name. -/
structure WellFormed (a : Arena) : Prop where
  /-- There are as many parents as nodes. -/
  size_parents : a.parents.size = a.headers.size
  /-- The nodes of a family have the slots of their pool, in order. -/
  slots_eq_range (f : Family) :
    (a.headers.toList.filter fun n ↦ n.kind.family = f).map (fun n ↦ n.slot.toNat) =
      List.range (a.pools.count f)
  /-- Each entry of a pool belongs to exactly one node. -/
  existsUnique_owner (f : Family) (slot : Nat) (hslot : slot < a.pools.count f) :
    ∃! i : Nat, ∃ n : Header, a.headers[i]? = some n ∧ n.kind.family = f ∧ n.slot.toNat = slot
  /-- The pools have as many entries as there are nodes. -/
  sum_count : (Family.all.map a.pools.count).sum = a.headers.size
  /-- No node lacks its data. -/
  exists_shape (n : Header) (hn : n ∈ a.headers) : ∃ s, a.pools.shape? n = some s
  /-- A child is absent or precedes its parent. -/
  children_lt (i : Nat) (n : Header) (hn : a.headers[i]? = some n) (s : Shape Symbol)
    (hs : a.pools.shape? n = some s) (child : Handle) (hchild : child ∈ s.children) :
    child = .absent ∨ child.toNat < i
  /-- The symbol of an identifier is in the table. -/
  symbol_lt (symbol : Symbol) (h : symbol ∈ a.pools.identifiers) :
    symbol.toNat < a.symbols.size

namespace Sound

variable {a : Arena}

theorem toNat_slot (ha : a.Sound) (hsize : a.size < nodeLimit) {i : Nat} {n : Header}
    (hn : a.headers[i]? = some n) : n.slot.toNat = a.rank n.kind.family i := by
  have hi : i < a.size := (Array.getElem?_eq_some_iff.1 hn).1
  have hlimit := nodeLimit_lt
  have hrank := a.rank_le n.kind.family i
  rw [(ha.slot_eq hn).2]
  exact UInt32.toNat_ofNat_of_lt' (by omega)

theorem map_toNat_slots (ha : a.Sound) (hsize : a.size < nodeLimit) (f : Family) :
    (a.slots f).map UInt32.toNat = List.range (a.pools.count f) := by
  have hcount := ha.count_le_size f
  have hlimit := nodeLimit_lt
  rw [ha.slots_eq, List.map_map]
  refine (List.map_congr_left fun i hi ↦ ?_).trans (List.map_id _)
  have hi := List.mem_range.1 hi
  exact UInt32.toNat_ofNat_of_lt' (by omega)

/-- Of two nodes of a family the later has the greater slot, so a slot has one owner. -/
theorem existsUnique_owner (ha : a.Sound) (hsize : a.size < nodeLimit) (f : Family) (slot : Nat)
    (hslot : slot < a.pools.count f) :
    ∃! i : Nat, ∃ n : Header, a.headers[i]? = some n ∧ n.kind.family = f ∧ n.slot.toNat = slot := by
  have hmem : slot ∈ (a.slots f).map UInt32.toNat := by
    rw [ha.map_toNat_slots hsize]
    exact List.mem_range.2 hslot
  obtain ⟨word, hword, rfl⟩ := List.mem_map.1 hmem
  obtain ⟨n, hn, rfl⟩ := List.mem_map.1 hword
  rw [List.mem_filter, decide_eq_true_eq] at hn
  obtain ⟨hn, rfl⟩ := hn
  obtain ⟨i, hi⟩ := List.mem_iff_getElem?.1 hn
  rw [Array.getElem?_toList] at hi
  refine ⟨i, ⟨n, hi, rfl, rfl⟩, ?_⟩
  rintro j ⟨m, hj, hfamily, hsame⟩
  rw [ha.toNat_slot hsize hi, ha.toNat_slot hsize hj, hfamily] at hsame
  rcases Nat.lt_trichotomy i j with hlt | heq | hlt
  · exact absurd hsame.symm (Nat.ne_of_lt (rank_lt_rank hi hlt))
  · exact heq.symm
  · have hrank := rank_lt_rank hj hlt
    rw [hfamily] at hrank
    exact absurd hsame (Nat.ne_of_lt hrank)

theorem sum_count (ha : a.Sound) : (Family.all.map a.pools.count).sum = a.headers.size := by
  have hcount : ∀ f, a.pools.count f = a.headers.toList.countP fun n ↦ n.kind.family = f := by
    intro f
    have hlength := congrArg List.length (ha.slots_eq f)
    rw [slots, List.length_map, List.length_map, List.length_range] at hlength
    rw [← hlength, List.countP_eq_length_filter]
  rw [List.map_congr_left fun f _ ↦ hcount f, ← Array.length_toList]
  induction a.headers.toList with
  | nil => rfl
  | cons n others ih =>
    rw [List.length_cons, ← ih]
    cases hf : n.kind.family <;> simp [Family.all, List.countP_cons, hf] <;> omega

/-- A sound arena below the limit is well formed. -/
theorem wellFormed (ha : a.Sound) (hsize : a.size < nodeLimit) : a.WellFormed where
  size_parents := ha.size_parents
  slots_eq_range f := by
    rw [← ha.map_toNat_slots hsize, slots, List.map_map]
    rfl
  existsUnique_owner := ha.existsUnique_owner hsize
  sum_count := ha.sum_count
  exists_shape n hn := by
    obtain ⟨i, hi⟩ := Array.mem_iff_getElem?.1 hn
    have hlt : i < a.size := (Array.getElem?_eq_some_iff.1 hi).1
    have hlimit := nodeLimit_lt
    exact ha.exists_shape hi (by omega)
  children_lt i n hn s hs child hchild := by
    have hlt : i < a.size := (Array.getElem?_eq_some_iff.1 hn).1
    have hlimit := nodeLimit_lt
    have hword : i < UInt32.size - 1 := by omega
    have hnode : (Handle.ofNat i).toNat = i := Handle.toNat_ofNat_of_lt (by omega)
    have hheader : a.header? (.ofNat i) = some n := by
      rw [header?_eq_some_iff, Handle.ne_absent_iff, hnode]
      exact ⟨hword, hn⟩
    rw [← hnode]
    exact ha.children_lt (by rw [shape?, hheader, Option.bind_some, hs]) hchild
  symbol_lt _ h := ha.symbol_lt h

end Sound

/-- Every run of edits leaves a well-formed arena, whatever handles the edits are given and whatever
values are lowered, as long as it has fewer nodes than the limit. -/
theorem wellFormed_arenaAfter (start : Arena) (hstart : start = {} ∨ start = prepared)
    (edits : List Edit) (hsize : (Edit.arenaAfter start edits).size < nodeLimit) :
    (Edit.arenaAfter start edits).WellFormed :=
  Sound.wellFormed (Reachable.sound ⟨start, edits, hstart, rfl⟩) hsize

/-- A run with a hole, handles of the pattern itself and of a later node, a kind that has no
elements and a value that is lowered. -/
def mixedEdits : List Edit :=
  [.add .nowhere (.identifier "a"),
    .pattern .arrayPattern .nowhere [.ofNat 0, .absent, .ofNat 1, .ofNat 7],
    .pattern .literal .nowhere [.ofNat 0],
    .lower (.object [("type", "RestElement"), ("argument", .object [("type", "Identifier")])])]

theorem wellFormed_mixedEdits :
    (Edit.arenaAfter prepared mixedEdits).size = 4 ∧
      (Edit.arenaAfter prepared mixedEdits).WellFormed :=
  ⟨by decide +kernel, wellFormed_arenaAfter prepared (.inr rfl) mixedEdits (by decide +kernel)⟩

end Arena

end BoundNames

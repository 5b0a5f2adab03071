import BoundNames.Proofs.Pools

/-!
# The getters and the shape of a node

Each pool has a getter with a guard of its own: on one kind, or on a family of kinds. Beside the
nine getters stand the shape of a node, which dispatches on the kind, and its type, which falls back
on that of the kind. All of them read one entry. A getter answers exactly for headers of the kinds
of its pool that name a slot of it (`answer?_eq_some_iff`), and a node has the shape of its header's
kind that holds what the getter answers (`shape?_eq_some_iff`).

The pools may hold anything, and the header need not be one of the arena: nothing here rests on the
invariant of an arena. `readings_agree` is what follows for all answers at once.
-/

set_option autoImplicit false
set_option relaxedAutoImplicit false

namespace BoundNames

/-- An entry of a pool. It does not tell an array pattern from an object pattern, nor one form of
specifier from another. -/
inductive Entry where
  | identifier (symbol : Symbol)
  | literal (raw : String)
  | pattern (children : List Handle)
  | property (data : Property)
  | rest (argument : Handle)
  | assignment (data : Assignment)
  | importing (data : Import)
  | specifier (data : Specifier)
  | foreign (typeName : String)
deriving DecidableEq

/-- What the pools keep of a shape. -/
def Shape.entry : Shape Symbol → Entry
  | identifier symbol => .identifier symbol
  | literal raw => .literal raw
  | arrayPattern elements => .pattern elements
  | objectPattern entries => .pattern entries
  | property data => .property data
  | rest argument => .rest argument
  | assignment data => .assignment data
  | importing data => .importing data
  | specifier _ data => .specifier data
  | foreign typeName => .foreign typeName

namespace Pools

/-- The entry at a place of a pool. -/
def entryAt? (p : Pools) (f : Family) (i : Nat) : Option Entry :=
  match f with
  | .identifiers => p.identifiers[i]?.map .identifier
  | .literals => p.literals[i]?.map .literal
  | .patterns => p.patterns[i]?.map .pattern
  | .properties => p.properties[i]?.map .property
  | .rests => p.rests[i]?.map .rest
  | .assignments => p.assignments[i]?.map .assignment
  | .imports => p.imports[i]?.map .importing
  | .specifiers => p.specifiers[i]?.map .specifier
  | .foreigns => p.foreigns[i]?.map .foreign

/-- What the getter of a pool answers for a header. -/
def answer? (p : Pools) (n : Header) : Family → Option Entry
  | .identifiers => (p.identifier? n).map .identifier
  | .literals => (p.literal? n).map .literal
  | .patterns => (p.pattern? n).map .pattern
  | .properties => (p.property? n).map .property
  | .rests => (p.rest? n).map .rest
  | .assignments => (p.assignment? n).map .assignment
  | .imports => (p.importing? n).map .importing
  | .specifiers => (p.specifier? n).map .specifier
  | .foreigns => (p.foreign? n).map .foreign

/-- The pools `others`, but for one pool that is left as it is. -/
def replaceOthers (p : Pools) (f : Family) (others : Pools) : Pools :=
  match f with
  | .identifiers => { others with identifiers := p.identifiers }
  | .literals => { others with literals := p.literals }
  | .patterns => { others with patterns := p.patterns }
  | .properties => { others with properties := p.properties }
  | .rests => { others with rests := p.rests }
  | .assignments => { others with assignments := p.assignments }
  | .imports => { others with imports := p.imports }
  | .specifiers => { others with specifiers := p.specifiers }
  | .foreigns => { others with foreigns := p.foreigns }

/-! ### The one entry that is read -/

theorem map_fetch_eq_some_iff {α : Type} {pool : Array α} {belongs : Bool} {n : Header}
    {wrap : α → Entry} {x : Entry} :
    (fetch pool belongs n).map wrap = some x ↔
      belongs = true ∧ n.slot ≠ Header.noSlot ∧ pool[n.slot.toNat]?.map wrap = some x := by
  by_cases hslot : n.slot = Header.noSlot
  · simp [fetch, Header.hasData, hslot]
  · cases belongs <;> simp [fetch, Header.hasData, hslot]

/-- A getter answers exactly for the headers of its kinds that name a slot of its pool. -/
theorem answer?_eq_some_iff {p : Pools} {n : Header} {f : Family} {x : Entry} :
    p.answer? n f = some x ↔
      n.kind.family = f ∧ n.slot ≠ Header.noSlot ∧ p.entryAt? f n.slot.toNat = some x := by
  -- The guard of each getter holds of the kinds of its pool and of no other.
  cases f <;> refine map_fetch_eq_some_iff.trans (and_congr_left fun _ ↦ ?_) <;>
    generalize n.kind = k <;> cases k <;> decide

theorem payload?_eq_some_iff {p : Pools} {k : Kind} {i : Nat} {s : Shape Symbol} :
    p.payload? k i = some s ↔ s.kind = k ∧ p.entryAt? k.family i = some s.entry := by
  have hsame : p.payload? s.kind i = some s ↔ p.entryAt? s.kind.family i = some s.entry := by
    cases s with
    | specifier form data =>
      cases form <;>
        simp [payload?, entryAt?, Shape.kind, SpecifierForm.kind, Kind.family, Shape.entry]
    | _ => simp [payload?, entryAt?, Shape.kind, Kind.family, Shape.entry]
  constructor
  · intro h
    obtain rfl := kind_of_payload? h
    exact ⟨rfl, hsame.1 h⟩
  · rintro ⟨rfl, h⟩
    exact hsame.2 h

/-- A node has the shape of its header's kind that holds what the getter of that kind answers. -/
theorem shape?_eq_some_iff {p : Pools} {n : Header} {s : Shape Symbol} :
    p.shape? n = some s ↔ s.kind = n.kind ∧ p.answer? n n.kind.family = some s.entry := by
  rw [shape?_eq_payload?, answer?_eq_some_iff]
  by_cases hslot : n.slot = Header.noSlot
  · simp [Header.hasData, hslot]
  · simp [Header.hasData, hslot, payload?_eq_some_iff]

theorem isSome_payload? (p : Pools) (k : Kind) (i : Nat) :
    (p.payload? k i).isSome = (p.entryAt? k.family i).isSome := by
  cases k <;> simp [payload?, entryAt?, Kind.family]

/-- Where a getter answers there is a shape, and it holds the answer. -/
theorem exists_shape?_of_answer? {p : Pools} {n : Header} {f : Family} {x : Entry}
    (h : p.answer? n f = some x) : ∃ s, p.shape? n = some s ∧ s.kind = n.kind ∧ s.entry = x := by
  obtain ⟨rfl, hslot, hx⟩ := answer?_eq_some_iff.1 h
  have hpayload : (p.payload? n.kind n.slot.toNat).isSome := by
    rw [isSome_payload?, hx]
    rfl
  obtain ⟨s, hs⟩ := Option.isSome_iff_exists.1 hpayload
  have hdata : n.hasData = true := decide_eq_true hslot
  have hshape : p.shape? n = some s := by rw [shape?_eq_payload?, if_pos hdata, hs]
  obtain ⟨hkind, hanswer⟩ := shape?_eq_some_iff.1 hshape
  rw [h] at hanswer
  exact ⟨s, hshape, hkind, (Option.some.inj hanswer).symm⟩

theorem shape?_eq_none_iff {p : Pools} {n : Header} :
    p.shape? n = none ↔ ∀ f, p.answer? n f = none := by
  constructor
  · intro hshape f
    cases hanswer : p.answer? n f with
    | none => rfl
    | some x =>
      obtain ⟨s, hs, -⟩ := exists_shape?_of_answer? hanswer
      rw [hshape] at hs
      cases hs
  · intro hanswers
    cases hshape : p.shape? n with
    | none => rfl
    | some s =>
      have hanswer := (shape?_eq_some_iff.1 hshape).2
      rw [hanswers] at hanswer
      cases hanswer

/-- The type is the one that the getter of foreign nodes answers, and that of the kind if it answers
none. -/
theorem typeName_eq_iff {p : Pools} {n : Header} {type : String} :
    p.typeName n = type ↔
      p.answer? n .foreigns = some (.foreign type) ∨
        (p.answer? n .foreigns = none ∧ n.kind.typeName = type) := by
  cases h : p.foreign? n <;> simp [typeName, answer?, h]

/-! ### The other pools -/

theorem entryAt?_replaceOthers (p : Pools) (f : Family) (others : Pools) (i : Nat) :
    (p.replaceOthers f others).entryAt? f i = p.entryAt? f i := by
  cases f <;> rfl

variable (p others : Pools) (n : Header)

theorem answer?_replaceOthers :
    (p.replaceOthers n.kind.family others).answer? n = p.answer? n := by
  ext f x
  rw [answer?_eq_some_iff, answer?_eq_some_iff]
  refine and_congr_right fun hf ↦ ?_
  subst hf
  rw [entryAt?_replaceOthers]

theorem shape?_replaceOthers :
    (p.replaceOthers n.kind.family others).shape? n = p.shape? n := by
  ext s
  rw [shape?_eq_some_iff, shape?_eq_some_iff, answer?_replaceOthers]

theorem typeName_replaceOthers :
    (p.replaceOthers n.kind.family others).typeName n = p.typeName n := by
  rw [typeName_eq_iff, answer?_replaceOthers, ← typeName_eq_iff]

/-- Whatever the pools hold and whatever the header says, at most one getter answers, and it is that
of the kind, with the entry at the slot. The shape is missing if and only if none answers, and
otherwise it is the one of the header's kind that holds the answer. The type is the one that the
getter of foreign nodes answers, and that of the kind if it does not answer. What the other pools
hold does not matter. -/
theorem readings_agree :
    (∀ f g, (p.answer? n f).isSome → (p.answer? n g).isSome → f = g) ∧
      (∀ f x, p.answer? n f = some x ↔
        n.kind.family = f ∧ n.slot ≠ Header.noSlot ∧ p.entryAt? f n.slot.toNat = some x) ∧
      (p.shape? n = none ↔ ∀ f, p.answer? n f = none) ∧
      (∀ f x, p.answer? n f = some x →
        ∃ s, p.shape? n = some s ∧ s.kind = n.kind ∧ s.entry = x) ∧
      (∀ type, p.typeName n = type ↔
        p.answer? n .foreigns = some (.foreign type) ∨
          (p.answer? n .foreigns = none ∧ n.kind.typeName = type)) ∧
      (p.replaceOthers n.kind.family others).answer? n = p.answer? n ∧
      (p.replaceOthers n.kind.family others).shape? n = p.shape? n ∧
      (p.replaceOthers n.kind.family others).typeName n = p.typeName n := by
  refine ⟨fun f g hf hg ↦ ?_, fun _ _ ↦ answer?_eq_some_iff, shape?_eq_none_iff,
    fun _ _ ↦ exists_shape?_of_answer?, fun _ ↦ typeName_eq_iff, p.answer?_replaceOthers others n,
    p.shape?_replaceOthers others n, p.typeName_replaceOthers others n⟩
  obtain ⟨x, hx⟩ := Option.isSome_iff_exists.1 hf
  obtain ⟨y, hy⟩ := Option.isSome_iff_exists.1 hg
  exact (answer?_eq_some_iff.1 hx).1.symm.trans (answer?_eq_some_iff.1 hy).1

/-- Pools that all have an entry at the first slot. -/
def fullPools : Pools where
  identifiers := #[⟨4⟩]
  literals := #["0"]
  patterns := #[[.ofNat 3, .absent]]
  properties := #[⟨.ofNat 1, .absent, true, false⟩]
  rests := #[.ofNat 9]
  assignments := #[⟨.absent, .ofNat 2⟩]
  imports := #[⟨[], .ofNat 1⟩]
  specifiers := #[⟨.absent, .ofNat 5⟩]
  foreigns := #["Super"]

theorem readings_fullPools :
    fullPools.answer? ⟨.importNamespaceSpecifier, .nowhere, 0⟩ .specifiers =
        some (.specifier ⟨.absent, .ofNat 5⟩) ∧
      (∀ g, (fullPools.answer? ⟨.importNamespaceSpecifier, .nowhere, 0⟩ g).isSome →
        .specifiers = g) ∧
      (∃ s, fullPools.shape? ⟨.importNamespaceSpecifier, .nowhere, 0⟩ = some s ∧
        s.kind = .importNamespaceSpecifier ∧ s.entry = .specifier ⟨.absent, .ofNat 5⟩) ∧
      fullPools.typeName ⟨.unknown, .nowhere, 0⟩ = "Super" ∧
      fullPools.typeName ⟨.unknown, .nowhere, 1⟩ = "" := by
  have hanswer : fullPools.answer? ⟨.importNamespaceSpecifier, .nowhere, 0⟩ .specifiers =
      some (.specifier ⟨.absent, .ofNat 5⟩) := by decide +kernel
  obtain ⟨hunique, -, -, hshape, -⟩ :=
    readings_agree fullPools {} ⟨.importNamespaceSpecifier, .nowhere, 0⟩
  obtain ⟨-, -, -, -, hforeign, -⟩ := readings_agree fullPools {} ⟨.unknown, .nowhere, 0⟩
  obtain ⟨-, -, -, -, hmissing, -⟩ := readings_agree fullPools {} ⟨.unknown, .nowhere, 1⟩
  refine ⟨hanswer, fun g ↦ hunique .specifiers g ?_, hshape _ _ hanswer, ?_, ?_⟩
  · rw [hanswer]
    rfl
  · exact (hforeign _).2 (.inl (by decide +kernel))
  · exact (hmissing _).2 (.inr (by decide +kernel))

end Pools

end BoundNames

import BoundNames.Proofs.Interning
import BoundNames.Proofs.Relocation

/-!
# Names of identifiers

The table of an arena holds the names that were interned, each once and in the order in which they
came first (`SymbolTable.Holds`). An arena interns the name of each identifier that is added and no
other, so its table can be read off its nodes: it holds the names it started with and then those of
the identifiers (`Interns`). No name stands twice in it, hence identifiers have one symbol if and
only if they have one name (`SymbolTable.Holds.symbol_eq_iff`). An identifier keeps its name and its
span until the nodes are taken away (`Builds.name?_add`).

After every run of edits the table holds the empty name, the common names if the run started with
them and took no nodes away, and the names of the identifiers (`names_interned`).
-/

set_option autoImplicit false
set_option relaxedAutoImplicit false

namespace BoundNames

/-- The name of a node that is proposed, if it is an identifier. -/
def Draft.name? : Draft → Option String
  | .identifier name => some name
  | _ => none

namespace Arena

variable {a b : Arena}

/-! ### Names by what a node says -/

theorem symbol?_eq_some_iff {node : Handle} {symbol : Symbol} :
    a.symbol? node = some symbol ↔ a.shape? node = some (.identifier symbol) := by
  have hpools : ∀ n, a.pools.identifier? n = some symbol ↔
      a.pools.shape? n = some (.identifier symbol) := by
    rintro ⟨kind, span, slot⟩
    cases kind <;> simp [Pools.identifier?, Pools.shape?, Pools.fetch]
  cases hn : a.header? node with
  | none => simp [symbol?, shape?, hn]
  | some n => simp [symbol?, shape?, hn, hpools]

theorem name?_of_node? {node : Handle} {span : Span} {draft : Draft}
    (h : a.node? node = some (span, draft)) :
    a.name? node = Draft.name? draft ∧ a.span? node = some span := by
  obtain ⟨n, s, hn, hs, hspan, hdraft⟩ := node?_eq_some_iff.1 h
  refine ⟨?_, by rw [span?, hn, Option.map_some, hspan]⟩
  subst hdraft
  cases hsymbol : a.symbol? node with
  | some symbol =>
    obtain rfl := Option.some.inj (hs.symm.trans (symbol?_eq_some_iff.1 hsymbol))
    rw [name?, hsymbol]
    rfl
  | none =>
    rw [name?, hsymbol, Option.map_none]
    cases s with
    | identifier symbol => rw [symbol?_eq_some_iff.2 hs] at hsymbol; cases hsymbol
    | _ => rfl

/-- The names of the nodes that are identifiers, in the order of the nodes. -/
def identifierNames (a : Arena) : List String :=
  (List.range a.size).filterMap fun i ↦ a.name? (.ofNat i)

section Addition

variable (ha : a.Sound) (span : Span) (draft : Draft)
  (hsize : (a.add span draft).2.size < nodeLimit)

include ha hsize

/-- A new node has a name if it is an identifier. -/
theorem name?_add_self :
    (a.add span draft).2.name? (.ofNat a.size) = Draft.name? draft := by
  rw [size_add] at hsize
  rw [(name?_of_node? (node?_add_self ha span draft (Nat.lt_of_succ_lt hsize))).1]
  cases draft <;> rfl

/-- A new identifier adds its name to those of the others. -/
theorem identifierNames_add :
    (a.add span draft).2.identifierNames = a.identifierNames ++ (Draft.name? draft).toList := by
  have hlimit := nodeLimit_lt
  have hold : ∀ i ∈ List.range a.size,
      (a.add span draft).2.name? (.ofNat i) = a.name? (.ofNat i) := by
    intro i hi
    rw [List.mem_range] at hi
    rw [size_add] at hsize
    have hheader : (a.header? (.ofNat i)).isSome := by
      rw [isSome_header?_iff, Handle.ne_absent_iff, Handle.toNat_ofNat_of_lt (by omega)]
      omega
    obtain ⟨n, hn⟩ := Option.isSome_iff_exists.1 hheader
    obtain ⟨⟨span', draft'⟩, hx⟩ := ha.exists_node? hn
    rw [(name?_of_node? hx).1, (name?_of_node? ((extends_add a span draft).node? ha hx)).1]
  have hnew : [a.size].filterMap (fun i ↦ (a.add span draft).2.name? (.ofNat i)) =
      (Draft.name? draft).toList := by
    have hname := name?_add_self ha span draft hsize
    cases hdraft : Draft.name? draft <;> simp [hname, hdraft]
  rw [identifierNames, size_add, List.range_succ, List.filterMap_append,
    List.filterMap_congr hold, hnew, identifierNames]

end Addition

/-! ### The table of an arena -/

/-- The table holds the names it started with and those of the identifiers. -/
def Interns (a : Arena) (first : List String) : Prop :=
  a.symbols.Holds (first ++ a.identifierNames)

/-- An addition interns the name of an identifier and nothing else. -/
theorem Interns.add {first : List String} (h : a.Interns first) (ha : a.Sound) (span : Span)
    (draft : Draft) (hsize : (a.add span draft).2.size < nodeLimit) :
    (a.add span draft).2.Interns first := by
  rw [Interns, identifierNames_add ha span draft hsize, ← List.append_assoc, symbols_add]
  cases draft with
  | identifier name => exact h.intern name
  | _ =>
    change a.symbols.Holds (first ++ a.identifierNames ++ [])
    rwa [List.append_nil]

theorem Builds.interns {first : List String} (h : a.Builds b) (ha : a.Sound)
    (hfirst : a.Interns first) (hsize : b.size < nodeLimit) : b.Interns first := by
  have hinvariant : b.Sound ∧ (b.size < nodeLimit → b.Interns first) := by
    refine h.preserves (P := fun c ↦ c.Sound ∧ (c.size < nodeLimit → c.Interns first)) ?_
      ⟨ha, fun _ ↦ hfirst⟩
    rintro c span draft ⟨hsound, hinterns⟩
    refine ⟨hsound.add span draft, fun hsize ↦ ?_⟩
    have hbefore : c.size < nodeLimit := by
      rw [size_add] at hsize
      omega
    exact (hinterns hbefore).add hsound span draft hsize
  exact hinvariant.2 hsize

theorem interns_empty : Interns {} [""] :=
  SymbolTable.holds_empty

theorem interns_prepared : Interns prepared ("" :: SymbolTable.commonNames) := by
  rw [Interns, show prepared.identifierNames = [] from rfl, List.append_nil]
  exact SymbolTable.holds_empty.internAll SymbolTable.commonNames

theorem Interns.symbol_eq_iff {first : List String} (h : a.Interns first) (ha : a.Sound)
    {node other : Handle} {s s' : Symbol} (hs : a.symbol? node = some s)
    (hs' : a.symbol? other = some s') : s = s' ↔ a.name? node = a.name? other := by
  have hlt := ha.symbol_lt (mem_identifiers_of_shape? (symbol?_eq_some_iff.1 hs))
  have hlt' := ha.symbol_lt (mem_identifiers_of_shape? (symbol?_eq_some_iff.1 hs'))
  rw [SymbolTable.Holds.symbol_eq_iff h hlt hlt', name?, name?, hs, hs', Option.map_some,
    Option.map_some, Option.some_inj]

/-! ### Identifiers in later arenas -/

theorem Builds.size_le (h : a.Builds b) : a.size ≤ b.size := by
  simpa [size] using h.toExtends.headers.length_le

/-- An identifier keeps its name and its span, whatever is added later. -/
theorem Builds.name?_add {span : Span} {name : String}
    (h : (a.add span (.identifier name)).2.Builds b) (ha : a.Sound) (hsize : b.size < nodeLimit) :
    b.name? (a.add span (.identifier name)).1 = some name ∧
      b.span? (a.add span (.identifier name)).1 = some span := by
  have hle := h.size_le
  rw [size_add] at hle
  have hnew := node?_add_self ha span (.identifier name) (by omega)
  exact name?_of_node? (h.toExtends.node? (ha.add span _) hnew)

end Arena

namespace Edit

/-- What comes of each edit of a run. -/
def outcomes (start : Arena) (edits : List Edit) : List Outcome :=
  ((applyAll edits).run { arena := start }).1

theorem applyAll_append (edits others : List Edit) (s : Session) :
    applyAll (edits ++ others) s =
      ((applyAll edits s).1 ++ (applyAll others (applyAll edits s).2).1,
        (applyAll others (applyAll edits s).2).2) := by
  rw [applyAll, List.mapM_append]
  rfl

theorem applyAll_cons (e : Edit) (edits : List Edit) (s : Session) :
    applyAll (e :: edits) s =
      ((e.apply s).1 :: (applyAll edits (e.apply s).2).1,
        (applyAll edits (e.apply s).2).2) := by
  rw [applyAll, List.mapM_cons]
  rfl

theorem length_applyAll (edits : List Edit) (s : Session) :
    (applyAll edits s).1.length = edits.length := by
  induction edits generalizing s with
  | nil => rfl
  | cons e edits ih => rw [applyAll_cons, List.length_cons, ih, List.length_cons]

/-- After nodes were taken away a run goes on from the arena without nodes and names. -/
theorem builds_of_clear_mem {edits : List Edit} (h : .clear ∈ edits) (s : Session) :
    Arena.Builds {} (applyAll edits s).2.arena := by
  induction edits generalizing s with
  | nil => cases h
  | cons e edits ih =>
    rw [snd_applyAll_cons]
    by_cases hlater : .clear ∈ edits
    · exact ih hlater (e.apply s).2
    · obtain rfl : .clear = e := (List.mem_cons.1 h).resolve_right hlater
      exact builds_applyAll (fun e he heq ↦ hlater (heq ▸ he)) (apply .clear s).2

section Runs

open Arena

variable {start : Arena} {edits : List Edit}

/-- The names a table holds before those of identifiers: the empty one, and the common ones if a run
starts with them and takes no nodes away. -/
def FirstNames (start : Arena) (edits : List Edit) (first : List String) : Prop :=
  (start = prepared ∧ .clear ∉ edits ∧ first = "" :: SymbolTable.commonNames) ∨
    ((start = {} ∨ .clear ∈ edits) ∧ first = [""])

theorem exists_firstNames (hstart : start = {} ∨ start = prepared) (edits : List Edit) :
    ∃ first, FirstNames start edits first := by
  by_cases hclear : .clear ∈ edits
  · exact ⟨_, .inr ⟨.inr hclear, rfl⟩⟩
  · rcases hstart with hempty | hprepared
    · exact ⟨_, .inr ⟨.inl hempty, rfl⟩⟩
    · exact ⟨_, .inl ⟨hprepared, hclear, rfl⟩⟩

/-- What a run interns are the first names and those of the identifiers. -/
theorem interns_arenaAfter {first : List String} (hfirst : FirstNames start edits first)
    (hsize : (arenaAfter start edits).size < nodeLimit) :
    (arenaAfter start edits).Interns first := by
  rcases hfirst with ⟨rfl, hkept, rfl⟩ | ⟨hfresh, rfl⟩
  · have hbuilds := builds_applyAll (fun e he heq ↦ hkept (heq ▸ he)) { arena := prepared }
    exact hbuilds.interns sound_prepared interns_prepared hsize
  · have hbuilds : Builds {} (arenaAfter start edits) := by
      by_cases hclear : .clear ∈ edits
      · exact builds_of_clear_mem hclear { arena := start }
      · obtain rfl := hfresh.resolve_right hclear
        exact builds_applyAll (fun e he heq ↦ hclear (heq ▸ he)) { arena := {} }
    exact hbuilds.interns sound_empty interns_empty hsize

/-- An identifier that a run adds has its name and its span until nodes are taken away. -/
theorem exists_identifier_added (hstart : start = {} ∨ start = prepared) (before : List Edit)
    (span : Span) (name : String) {later : List Edit} (hlater : .clear ∉ later)
    (hedits : edits = before ++ .add span (.identifier name) :: later)
    (hsize : (arenaAfter start edits).size < nodeLimit) :
    ∃ node, (outcomes start edits)[before.length]? = some (.node node) ∧
      (arenaAfter start edits).name? node = some name ∧
      (arenaAfter start edits).span? node = some span := by
  subst hedits
  let s := (applyAll before { arena := start }).2
  have hs : s.arena.Sound := Reachable.sound ⟨start, before, hstart, rfl⟩
  have hafter : arenaAfter start (before ++ .add span (.identifier name) :: later) =
      (applyAll later (apply (.add span (.identifier name)) s).2).2.arena := by
    change (applyAll _ _).2.arena = _
    rw [applyAll_append, applyAll_cons]
  have hbuilds : (s.arena.add span (.identifier name)).2.Builds
      (arenaAfter start (before ++ .add span (.identifier name) :: later)) := by
    rw [hafter]
    exact builds_applyAll (fun e he heq ↦ hlater (heq ▸ he)) (apply (.add span _) s).2
  refine ⟨(s.arena.add span (.identifier name)).1, ?_, hbuilds.name?_add hs hsize⟩
  change (applyAll _ _).1[before.length]? = _
  rw [applyAll_append, applyAll_cons,
    List.getElem?_append_right (Nat.le_of_eq (length_applyAll before _)), length_applyAll,
    Nat.sub_self, List.getElem?_cons_zero]
  rfl

end Runs

end Edit

namespace Arena

/-- Identifiers keep their names. In every run of edits, an identifier that is added has its name
and its span until nodes are taken away, also in the arenas that an edit passes through. Two
identifiers have one symbol if and only if they have one name. The table holds the empty name, the
common names if the run started with them and took no nodes away, and the names of the identifiers
in the order of the nodes, each once and where it comes first. -/
theorem names_interned {start : Arena} (hstart : start = {} ∨ start = prepared)
    (edits : List Edit) (hsize : (Edit.arenaAfter start edits).size < nodeLimit) :
    (∀ before span name later, edits = before ++ .add span (.identifier name) :: later →
        .clear ∉ later →
          ∃ node, (Edit.outcomes start edits)[before.length]? = some (.node node) ∧
            (Edit.arenaAfter start edits).name? node = some name ∧
            (Edit.arenaAfter start edits).span? node = some span) ∧
      (∀ a b : Arena, (Edit.arenaAfter start edits).Builds a → ∀ span name,
        (a.add span (.identifier name)).2.Builds b → b.size < nodeLimit →
          b.name? (a.add span (.identifier name)).1 = some name ∧
            b.span? (a.add span (.identifier name)).1 = some span) ∧
      (∀ node other s s', (Edit.arenaAfter start edits).symbol? node = some s →
        (Edit.arenaAfter start edits).symbol? other = some s' →
          (s = s' ↔ (Edit.arenaAfter start edits).name? node =
            (Edit.arenaAfter start edits).name? other)) ∧
      ∀ first, Edit.FirstNames start edits first →
        (Edit.arenaAfter start edits).symbols.names.toList =
          (first ++ (Edit.arenaAfter start edits).identifierNames).eraseDups := by
  have hsound : (Edit.arenaAfter start edits).Sound := Reachable.sound ⟨start, edits, hstart, rfl⟩
  refine ⟨fun before span name later hedits hlater ↦ ?_, fun a b ha span name hb hlimit ↦ ?_,
    fun node other s s' hs hs' ↦ ?_, fun first hfirst ↦ ?_⟩
  · exact Edit.exists_identifier_added hstart before span name hlater hedits hsize
  · exact hb.name?_add (ha.preserves (fun _ span draft h ↦ h.add span draft) hsound) hlimit
  · obtain ⟨first, hfirst⟩ := Edit.exists_firstNames hstart edits
    exact (Edit.interns_arenaAfter hfirst hsize).symbol_eq_iff hsound hs hs'
  · exact Edit.interns_arenaAfter hfirst hsize

/-- A value with one common name and one other is lowered before an identifier without a name is
added, and the common name comes once more after it. -/
def namingEdits : List Edit :=
  [.lower (.object [("type", "ArrayPattern"), ("elements", .array
      [.object [("type", "Identifier"), ("name", "value")],
        .object [("type", "Identifier"), ("name", "size")]])]),
    .add ⟨3, 3⟩ (.identifier ""),
    .add ⟨5, 10⟩ (.identifier "value")]

theorem names_namingEdits :
    (Edit.arenaAfter prepared namingEdits).size = 5 ∧
      (∃ node, (Edit.outcomes prepared namingEdits)[1]? = some (.node node) ∧
        (Edit.arenaAfter prepared namingEdits).name? node = some "" ∧
        (Edit.arenaAfter prepared namingEdits).span? node = some ⟨3, 3⟩) ∧
      (Edit.arenaAfter prepared namingEdits).symbols.names.toList =
        "" :: SymbolTable.commonNames ++ ["size"] := by
  have hsize : (Edit.arenaAfter prepared namingEdits).size = 5 := by decide +kernel
  have hlimit : (Edit.arenaAfter prepared namingEdits).size < nodeLimit := by
    rw [hsize]
    decide
  obtain ⟨hadded, -, -, hnames⟩ := names_interned (.inr rfl) namingEdits hlimit
  refine ⟨hsize, hadded (namingEdits.take 1) ⟨3, 3⟩ "" (namingEdits.drop 2) rfl ?_, ?_⟩
  · simp [namingEdits]
  · rw [hnames _ (.inl ⟨rfl, by simp [namingEdits], rfl⟩)]
    decide +kernel

end Arena

end BoundNames

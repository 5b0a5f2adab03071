import BoundNames.Proofs.Names

/-!
# How many nodes handles can name

A handle is the number of nodes before its node, cut down to a word, and nothing checks that the
number fits. The last word is the absent handle, so one word fewer is left for nodes than there are
words. No bound on the size of an arena is assumed here. In a run that adds one node with each edit,
the `n`-th edit gives the word for `n` (`outcomes_of_adds`). As long as `n` is neither the last word
nor beyond, this leads to the node of that edit and to no other (`leadsTo_of_toNat`). At the last
word the edit gives the absent handle, and beyond it the handle of a node that was there.

So the handles of a run are `Faithful` if and only if there are fewer of them than words
(`handles_faithful_iff`).
-/

set_option autoImplicit false
set_option relaxedAutoImplicit false

namespace BoundNames.Edit

open Arena (size_add headers_add header?_eq_some_iff)

/-! ### Edits that add one node -/

/-- The span and the draft of the node that an edit adds, if it is one that adds a single node: a
draft, or a pattern or a specifier whose kind goes with its data. -/
def node? : Edit → Option (Span × Draft)
  | add span draft => some (span, draft)
  | pattern kind span elements =>
    (Draft.patternOf kind elements).toOption.map fun draft ↦ (span, draft)
  | specifier kind span data =>
    (Draft.specifierOf kind data).toOption.map fun draft ↦ (span, draft)
  | lower _ | clear => none

/-- Every edit of the run adds a single node. -/
def AllAdd (edits : List Edit) : Prop :=
  ∀ e ∈ edits, e.node?.isSome

theorem addChecked_of_toOption {place span : Span} {outcome : Except Misuse Draft} {draft : Draft}
    (h : (outcome.toOption.map fun draft ↦ (place, draft)) = some (span, draft)) (s : Session) :
    (addChecked place outcome s).1 = .node (.ofNat s.arena.size) ∧
      (addChecked place outcome s).2.arena = (s.arena.add span draft).2 := by
  cases outcome with
  | error cause => cases h
  | ok _ =>
    cases h
    exact ⟨rfl, rfl⟩

/-- Such an edit gives the word for the number of nodes that are there. -/
theorem apply_of_node? {e : Edit} {span : Span} {draft : Draft} (h : e.node? = some (span, draft))
    (s : Session) :
    (e.apply s).1 = .node (.ofNat s.arena.size) ∧
      (e.apply s).2.arena = (s.arena.add span draft).2 := by
  cases e with
  | add _ _ =>
    cases h
    exact ⟨rfl, rfl⟩
  | pattern kind place elements => exact addChecked_of_toOption h s
  | specifier kind place data => exact addChecked_of_toOption h s
  | lower _ => cases h
  | clear => cases h

theorem AllAdd.ne_clear {edits : List Edit} (h : AllAdd edits) : ∀ e ∈ edits, e ≠ .clear := by
  rintro _ he rfl
  cases h _ he

/-- A run of such edits gives the words for consecutive numbers, whether they fit or not. -/
theorem outcomes_of_adds {edits : List Edit} (h : AllAdd edits) (s : Session) :
    (applyAll edits s).1 =
        (List.range' s.arena.size edits.length).map (fun n ↦ .node (.ofNat n)) ∧
      (applyAll edits s).2.arena.size = s.arena.size + edits.length := by
  induction edits generalizing s with
  | nil => exact ⟨rfl, rfl⟩
  | cons e edits ih =>
    obtain ⟨⟨span, draft⟩, he⟩ := Option.isSome_iff_exists.1 (h e List.mem_cons_self)
    obtain ⟨hnode, harena⟩ := apply_of_node? he s
    have hsize : (e.apply s).2.arena.size = s.arena.size + 1 := by rw [harena, size_add]
    obtain ⟨hothers, hlast⟩ := ih (fun e he ↦ h e (List.mem_cons_of_mem _ he)) (e.apply s).2
    rw [hsize] at hothers hlast
    rw [applyAll_cons, hnode, hothers, hlast, List.length_cons, List.range'_succ, List.map_cons]
    exact ⟨rfl, by omega⟩

/-! ### What handles lead to -/

/-- The `i`-th edit of a run puts the header behind those that were there, and the header has the
kind and the span that the edit says. -/
def Pushes (s : Session) (edits : List Edit) (i : Nat) (n : Header) : Prop :=
  ∃ e span draft, edits[i]? = some e ∧ e.node? = some (span, draft) ∧
    n.kind = draft.kind ∧ n.span = span ∧
    (applyAll (edits.take (i + 1)) s).2.arena.headers =
      (applyAll (edits.take i) s).2.arena.headers.push n

/-- After a run the handle leads to the node of its `i`-th edit: to the header of that edit, at the
place where the edit put it. -/
def LeadsTo (s : Session) (edits : List Edit) (i : Nat) (h : Handle) : Prop :=
  ∃ n, Pushes s edits i n ∧ h.toNat = (applyAll (edits.take i) s).2.arena.size ∧
    (applyAll edits s).2.arena.header? h = some n

/-- After a run each of its edits has a handle of its own, and it leads to the node of the edit. -/
structure Faithful (s : Session) (edits : List Edit) (handles : List Handle) : Prop where
  nodup : handles.Nodup
  absent_not_mem : .absent ∉ handles
  leadsTo (i : Nat) (h : Handle) (hi : handles[i]? = some h) : LeadsTo s edits i h

/-- The words for the numbers below `n`. -/
def firstHandles (n : Nat) : List Handle :=
  (List.range n).map .ofNat

theorem getElem?_firstHandles_eq_some_iff {n i : Nat} {h : Handle} :
    (firstHandles n)[i]? = some h ↔ i < n ∧ h = .ofNat i := by
  rw [firstHandles, List.getElem?_map, Option.map_eq_some_iff]
  constructor
  · rintro ⟨j, hj, rfl⟩
    obtain ⟨hlt, rfl⟩ := List.getElem?_eq_some_iff.1 hj
    rw [List.length_range] at hlt
    rw [List.getElem_range]
    exact ⟨hlt, rfl⟩
  · rintro ⟨hlt, rfl⟩
    exact ⟨i, List.getElem?_range hlt, rfl⟩

section Runs

variable {s : Session} {edits : List Edit}

theorem size_take_of_adds (hs : s.arena.size = 0) (hedits : AllAdd edits) {i : Nat}
    (hi : i ≤ edits.length) : (applyAll (edits.take i) s).2.arena.size = i := by
  have htake : AllAdd (edits.take i) := fun e he ↦ hedits e (List.mem_of_mem_take he)
  rw [(outcomes_of_adds htake s).2, hs, List.length_take, Nat.zero_add, Nat.min_eq_left hi]

/-- What follows the first edits of a run only adds to what they leave. -/
theorem builds_of_take (hedits : AllAdd edits) (i : Nat) :
    (applyAll (edits.take i) s).2.arena.Builds (applyAll edits s).2.arena := by
  have hsplit : applyAll edits s = applyAll (edits.take i ++ edits.drop i) s := by
    rw [List.take_append_drop]
  rw [hsplit, applyAll_append]
  exact builds_applyAll (fun e he ↦ hedits.ne_clear e (List.mem_of_mem_drop he)) _

/-- A handle whose word is the number of an edit leads to the node of that edit: the header was put
at that place, and later edits do not move it. -/
theorem leadsTo_of_toNat (hs : s.arena.size = 0) (hedits : AllAdd edits) {h : Handle}
    (habsent : h ≠ .absent) (hlt : h.toNat < edits.length) : LeadsTo s edits h.toNat h := by
  let t := (applyAll (edits.take h.toNat) s).2
  have hsize : t.arena.size = h.toNat := size_take_of_adds hs hedits (Nat.le_of_lt hlt)
  let e := edits[h.toNat]
  obtain ⟨⟨span, draft⟩, hnode⟩ := Option.isSome_iff_exists.1 (hedits e (List.getElem_mem hlt))
  let n : Header := ⟨draft.kind, span, .ofNat (t.arena.pools.count draft.kind.family)⟩
  have hpushed : (applyAll (edits.take (h.toNat + 1)) s).2.arena.headers =
      t.arena.headers.push n := by
    rw [List.take_succ_eq_append_getElem hlt, applyAll_append, applyAll_cons]
    change (e.apply t).2.arena.headers = _
    rw [(apply_of_node? hnode t).2, headers_add]
  have hthere : (applyAll (edits.take (h.toNat + 1)) s).2.arena.header? h = some n := by
    rw [header?_eq_some_iff, hpushed, ← hsize]
    exact ⟨habsent, Array.getElem?_push_size⟩
  exact ⟨n, ⟨e, span, draft, List.getElem?_eq_getElem hlt, hnode, rfl, rfl, hpushed⟩, hsize.symm,
    (builds_of_take hedits (h.toNat + 1)).toExtends.header? hthere⟩

/-- Words for fewer nodes than there are words do not run into the absent one, and each is that of
its own number. -/
theorem faithful_of_length_le (hs : s.arena.size = 0) (hedits : AllAdd edits)
    (hlength : edits.length ≤ UInt32.size - 1) :
    Faithful s edits (firstHandles edits.length) := by
  have hword : ∀ n < edits.length, (Handle.ofNat n).toNat = n := fun n hn ↦
    Handle.toNat_ofNat_of_lt (by omega)
  have hpresent : ∀ n < edits.length, Handle.ofNat n ≠ .absent := by
    intro n hn
    rw [Handle.ne_absent_iff, hword n hn]
    omega
  constructor
  case nodup =>
    refine List.nodup_range.map_on fun n hn m hm heq ↦ ?_
    rw [← hword n (List.mem_range.1 hn), heq, hword m (List.mem_range.1 hm)]
  case absent_not_mem =>
    intro hmem
    obtain ⟨n, hn, heq⟩ := List.mem_map.1 hmem
    exact hpresent n (List.mem_range.1 hn) heq
  case leadsTo =>
    intro n h hn
    obtain ⟨hlt, rfl⟩ := getElem?_firstHandles_eq_some_iff.1 hn
    have hleads := leadsTo_of_toNat hs hedits (hpresent n hlt) (by rwa [hword n hlt])
    rwa [hword n hlt] at hleads

/-- In a run that starts without nodes and in which every edit adds one, the edit that finds `n`
nodes gives the word for `n`. The handles are distinct, none of them is absent, and each leads to
the node of its edit, if and only if there are fewer nodes than words. The edit that finds one node
fewer than there are words gives the absent handle, and an edit that finds more nodes than that
gives an older handle, which leads to an older node or is absent. -/
theorem handles_faithful_iff (hs : s.arena.size = 0) (hedits : AllAdd edits) :
    ∃ handles : List Handle,
      (applyAll edits s).1 = handles.map .node ∧ handles.length = edits.length ∧
      (∀ n ≤ edits.length, (applyAll (edits.take n) s).2.arena.size = n) ∧
      (∀ n h, handles[n]? = some h → h.toNat = n % UInt32.size) ∧
      (Faithful s edits handles ↔ edits.length ≤ UInt32.size - 1) ∧
      (∀ h, handles[UInt32.size - 1]? = some h → h = .absent) ∧
      ∀ n h, UInt32.size ≤ n → handles[n]? = some h →
        ∃ older < n, older = n % UInt32.size ∧ handles[older]? = some h ∧
          (h = .absent ∨ LeadsTo s edits older h) := by
  have hword : ∀ n h, (firstHandles edits.length)[n]? = some h → h.toNat = n % UInt32.size := by
    intro n h hh
    rw [(getElem?_firstHandles_eq_some_iff.1 hh).2, Handle.toNat_ofNat]
  refine ⟨firstHandles edits.length, ?_, by simp [firstHandles],
    fun n hn ↦ size_take_of_adds hs hedits hn, hword,
    ⟨fun hfaithful ↦ ?_, faithful_of_length_le hs hedits⟩,
    fun h hh ↦ (getElem?_firstHandles_eq_some_iff.1 hh).2, fun n h hn hh ↦ ?_⟩
  · rw [(outcomes_of_adds hedits s).1, hs, ← List.range_eq_range', firstHandles, List.map_map]
    rfl
  · -- Among more handles than that is the one of the last word.
    by_contra hlength
    exact hfaithful.absent_not_mem (List.mem_of_getElem?
      (getElem?_firstHandles_eq_some_iff.2 ⟨Nat.lt_of_not_le hlength, rfl⟩))
  · have holder : h.toNat < n := by
      rw [hword n h hh]
      exact Nat.lt_of_lt_of_le (Nat.mod_lt n (by decide)) hn
    have hlt := Nat.lt_trans holder (getElem?_firstHandles_eq_some_iff.1 hh).1
    refine ⟨h.toNat, holder, hword n h hh,
      getElem?_firstHandles_eq_some_iff.2 ⟨hlt, h.ofNat_toNat.symm⟩, ?_⟩
    by_cases habsent : h = .absent
    · exact .inl habsent
    · exact .inr (leadsTo_of_toNat hs hedits habsent hlt)

end Runs

/-- A pattern with its own handle and a specifier, both by their kinds, after a property. -/
def checkedEdits : List Edit :=
  [.add .nowhere (.property ⟨.absent, .absent, true, false⟩),
    .pattern .objectPattern ⟨0, 3⟩ [.ofNat 0, .ofNat 1],
    .specifier .importDefaultSpecifier ⟨4, 9⟩ ⟨.absent, .ofNat 1⟩]

/-- One literal more than there are words. -/
def crowdedEdits : List Edit :=
  List.replicate (UInt32.size + 1) (.add .nowhere (.literal "0"))

theorem handles_crowdedEdits :
    (∃ handles, (applyAll checkedEdits { arena := {} }).1 = handles.map .node ∧
        Faithful { arena := {} } checkedEdits handles) ∧
      ∃ handles, (applyAll crowdedEdits { arena := {} }).1 = handles.map .node ∧
        ¬ Faithful { arena := {} } crowdedEdits handles ∧
        handles[UInt32.size - 1]? = some .absent ∧ handles[UInt32.size]? = some (.ofNat 0) ∧
        LeadsTo { arena := {} } crowdedEdits 0 (.ofNat 0) := by
  constructor
  · have hadds : AllAdd checkedEdits := by
      simp [AllAdd, checkedEdits, node?, Draft.patternOf, Draft.specifierOf, Except.toOption]
    obtain ⟨handles, hhandles, -, -, -, hfaithful, -⟩ :=
      handles_faithful_iff (s := { arena := {} }) rfl hadds
    exact ⟨handles, hhandles, hfaithful.2 (by decide)⟩
  · have hadds : AllAdd crowdedEdits := by
      intro e he
      rw [List.eq_of_mem_replicate he]
      rfl
    have hlength : crowdedEdits.length = UInt32.size + 1 := List.length_replicate
    obtain ⟨handles, hhandles, hsize, -, hword, hfaithful, hlast, holder⟩ :=
      handles_faithful_iff (s := { arena := {} }) rfl hadds
    rw [hlength] at hsize hfaithful
    have hlastWord : handles[UInt32.size - 1]? = some .absent := by
      rw [List.getElem?_eq_getElem (by omega)]
      exact congrArg some (hlast _ (List.getElem?_eq_getElem (by omega)))
    obtain ⟨h, hh⟩ : ∃ h, handles[UInt32.size]? = some h :=
      ⟨_, List.getElem?_eq_getElem (by omega)⟩
    obtain ⟨_, -, hzero, -, hleads⟩ := holder _ h (Nat.le_refl _) hh
    rw [hzero, Nat.mod_self] at hleads
    obtain rfl : .ofNat 0 = h := Handle.toNat_inj.1 (hword _ h hh).symm
    exact ⟨handles, hhandles, fun h ↦ absurd (hfaithful.1 h) (by omega), hlastWord, hh,
      hleads.resolve_left (by decide)⟩

end BoundNames.Edit

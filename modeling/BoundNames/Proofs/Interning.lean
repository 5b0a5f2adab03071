import BoundNames.Proofs.Symbols
import Mathlib.Data.Finset.Card
import Mathlib.Data.List.Induction

/-!
# Runs of an interner

A table that names are interned into holds each of them once, in the order in which they came first
(`SymbolTable.Holds`), so the symbol of a name is determined by the calls alone. In such a table a
name has a symbol if and only if the symbol stands for the name (`Holds.find?_eq_some_iff`), as long
as words of 32 bits can tell the places apart, and a name that was interned once keeps its symbol
(`find?_intern_of_eq_some`).

A run is a list of calls (`Call`) on the table that holds the empty name alone. It interns the names
of its calls in turn (`tableAfter_eq_internAll`), and each call that interns a name is answered with
the symbol that the last table has for it (`find?_of_getElem?`). `symbols_bijective` collects what
follows of numbering, stability and the two directions of look-up.

`IndexedTable` keeps the symbols in a map beside the names and never searches for a name. The two
are updated apart, and a run leaves in them what it leaves in a table (`IndexedTable.Agrees`).
-/

set_option autoImplicit false
set_option relaxedAutoImplicit false

namespace BoundNames

theorem Symbol.ofNat_toNat (s : Symbol) : Symbol.ofNat s.toNat = s :=
  congrArg Symbol.mk UInt32.ofNat_toNat

namespace SymbolTable

/-! ### Tables of names in their order -/

theorem eraseDups_concat (names : List String) (name : String) :
    (names ++ [name]).eraseDups =
      if name ∈ names then names.eraseDups else names.eraseDups ++ [name] := by
  rw [List.eraseDups_append]
  split <;> simp_all [List.removeAll, List.eraseDups_cons]

theorem nodup_eraseDups (names : List String) : names.eraseDups.Nodup := by
  induction names using List.reverseRecOn with
  | nil => simp
  | append_singleton others name ih =>
    rw [eraseDups_concat]
    split
    · exact ih
    · next hnew =>
      refine List.nodup_append.2 ⟨ih, List.nodup_singleton name, ?_⟩
      rintro x hx y hy rfl
      rw [List.mem_eraseDups] at hx
      exact hnew (List.mem_singleton.1 hy ▸ hx)

/-- The table holds the names of a list, each once, in the order in which they come first. -/
def Holds (t : SymbolTable) (names : List String) : Prop :=
  t.names.toList = names.eraseDups

theorem holds_empty : Holds {} [""] := by
  simp [Holds, List.eraseDups_cons]

namespace Holds

variable {t : SymbolTable} {names : List String} (h : t.Holds names)

include h

theorem mem_iff (name : String) : name ∈ t.names ↔ name ∈ names := by
  rw [← Array.mem_toList_iff, h, List.mem_eraseDups]

theorem nodup : t.names.toList.Nodup :=
  h ▸ nodup_eraseDups names

/-- Interning a name adds it to the names that the table holds. -/
protected theorem intern (name : String) : (t.intern name).2.Holds (names ++ [name]) := by
  rw [Holds, names_intern, eraseDups_concat]
  by_cases hname : name ∈ names
  · rw [if_pos ((h.mem_iff name).2 hname), if_pos hname]
    exact h
  · rw [if_neg (mt (h.mem_iff name).1 hname), if_neg hname, Array.toList_push, h]

/-- Two places of a table with one name are the same place. -/
theorem symbol_eq_iff {s s' : Symbol} (hs : s.toNat < t.size) (hs' : s'.toNat < t.size) :
    s = s' ↔ t.name s = t.name s' := by
  have hplace : ∀ s : Symbol, s.toNat < t.size → t.names.toList[s.toNat]? = some (t.name s) := by
    intro s hs
    rw [Array.getElem?_toList, name, name?, Array.getElem?_eq_getElem hs, Option.getD_some]
  refine ⟨fun heq ↦ congrArg t.name heq, fun heq ↦ ?_⟩
  have hsame : t.names.toList[s.toNat]? = t.names.toList[s'.toNat]? := by
    rw [hplace s hs, hplace s' hs', heq]
  have hword : s.word.toNat = s'.word.toNat := (List.getElem?_inj hs h.nodup).1 hsame
  cases s
  cases s'
  exact congrArg Symbol.mk (UInt32.toNat_inj.1 hword)

/-- A name has the place at which it stands: no other place has it. -/
theorem idxOf?_eq_some_iff {name : String} {i : Nat} :
    t.names.toList.idxOf? name = some i ↔ t.names.toList[i]? = some name := by
  rw [List.idxOf?_eq_some_iff, List.getElem?_eq_some_iff]
  refine ⟨fun ⟨hi, hname, _⟩ ↦ ⟨hi, hname⟩, fun ⟨hi, hname⟩ ↦ ⟨hi, hname, fun j hj heq ↦ ?_⟩⟩
  have hsame : t.names.toList[j]? = t.names.toList[i]? := by
    rw [List.getElem?_eq_getElem (Nat.lt_trans hj hi), List.getElem?_eq_getElem hi, heq, hname]
  exact Nat.ne_of_lt hj ((List.getElem?_inj (Nat.lt_trans hj hi) h.nodup).1 hsame)

/-- Looking a name up and asking a symbol for its name are inverse to each other, if 32 bits can
hold every place. -/
theorem find?_eq_some_iff (hsize : t.size ≤ UInt32.size) {name : String} {s : Symbol} :
    t.find? name = some s ↔ t.name? s = some name := by
  rw [find?, Option.map_eq_some_iff, name?, ← Array.getElem?_toList]
  constructor
  · rintro ⟨i, hi, rfl⟩
    rw [h.idxOf?_eq_some_iff] at hi
    have hlt : i < t.size := (List.getElem?_eq_some_iff.1 hi).1
    rw [Symbol.toNat_ofNat, Nat.mod_eq_of_lt (Nat.lt_of_lt_of_le hlt hsize)]
    exact hi
  · intro hname
    exact ⟨s.toNat, h.idxOf?_eq_some_iff.2 hname, s.ofNat_toNat⟩

/-- The names are as many as different ones in the list. -/
theorem size_eq_card : t.size = names.toFinset.card := by
  have hsame : t.names.toList.toFinset = names.toFinset := by
    ext name
    rw [List.mem_toFinset, List.mem_toFinset, Array.mem_toList_iff, h.mem_iff]
  rw [← hsame, List.toFinset_card_of_nodup h.nodup]
  rfl

end Holds

theorem Holds.internAll {t : SymbolTable} {names : List String} (h : t.Holds names)
    (others : List String) : (t.internAll others).Holds (names ++ others) := by
  unfold SymbolTable.internAll
  induction others generalizing t names with
  | nil => simpa using h
  | cons name others ih => simpa using ih (h.intern name)

/-! ### What interning keeps -/

section Interning

variable (t : SymbolTable)

theorem isSome_find?_iff {name : String} : (t.find? name).isSome ↔ name ∈ t.names := by
  rw [Option.isSome_iff_ne_none, ne_eq, find?_eq_none_iff, not_not]

theorem intern_of_find? {name : String} {s : Symbol} (h : t.find? name = some s) :
    t.intern name = (s, t) := by
  simp only [intern, h]

/-- A name that the table holds is interned without a change. -/
theorem intern_of_mem {name : String} (h : name ∈ t.names) : (t.intern name).2 = t := by
  obtain ⟨s, hs⟩ := Option.isSome_iff_exists.1 (t.isSome_find?_iff.2 h)
  rw [t.intern_of_find? hs]

theorem name?_of_isPrefix {t u : SymbolTable} (h : t.names.toList <+: u.names.toList)
    {name : String} {s : Symbol} (hs : t.name? s = some name) : u.name? s = some name := by
  obtain ⟨others, hothers⟩ := h
  rw [name?, ← Array.getElem?_toList] at hs ⊢
  rw [← hothers, List.getElem?_append_left (List.getElem?_eq_some_iff.1 hs).1, hs]

theorem find?_of_isPrefix {t u : SymbolTable} (h : t.names.toList <+: u.names.toList)
    {name : String} {s : Symbol} (hs : t.find? name = some s) : u.find? name = some s := by
  obtain ⟨i, hi, rfl⟩ := Option.map_eq_some_iff.1 hs
  exact Option.map_eq_some_iff.2 ⟨i, h.findIdx?_eq_some hi, rfl⟩

/-- A name keeps its symbol when another is interned. -/
theorem find?_intern_of_eq_some {name other : String} {s : Symbol} (h : t.find? name = some s) :
    (t.intern other).2.find? name = some s :=
  find?_of_isPrefix (t.names_isPrefix_intern other) h

/-- The symbol that interning gives is the one that the name has from then on. -/
theorem find?_intern_self (name : String) :
    (t.intern name).2.find? name = some (t.intern name).1 := by
  cases hfind : t.find? name with
  | some s => rw [t.intern_of_find? hfind, hfind]
  | none =>
    have hnew : name ∉ t.names.toList := by
      rw [Array.mem_toList_iff]
      exact (t.find?_eq_none_iff name).1 hfind
    have hplace : (t.names.toList ++ [name]).idxOf? name = some t.size := by
      rw [List.idxOf?_eq_some_iff]
      refine ⟨by simp [size], by simp [size], fun j hj heq ↦ hnew ?_⟩
      rw [← heq, List.getElem_append_left hj]
      exact List.getElem_mem hj
    simp only [intern, hfind]
    rw [find?, Array.toList_push, hplace, Option.map_some]

/-- Interning gives no symbol to a name but the one that is interned. -/
theorem find?_intern_of_ne {name other : String} (h : other ≠ name) :
    (t.intern name).2.find? other = t.find? other := by
  cases hfind : t.find? other with
  | some s => exact t.find?_intern_of_eq_some hfind
  | none =>
    rw [find?_eq_none_iff] at hfind ⊢
    rw [names_intern]
    split
    · exact hfind
    · simp [hfind, h]

theorem names_isPrefix_internAll (names : List String) :
    t.names.toList <+: (t.internAll names).names.toList := by
  unfold internAll
  induction names generalizing t with
  | nil => exact List.prefix_refl _
  | cons name others ih => exact (t.names_isPrefix_intern name).trans (ih (t.intern name).2)

/-- Names that the table holds are interned without a change. -/
theorem internAll_of_forall_mem {names : List String} (h : ∀ name ∈ names, name ∈ t.names) :
    t.internAll names = t := by
  unfold internAll
  induction names with
  | nil => rfl
  | cons name others ih =>
    rw [List.foldl_cons, t.intern_of_mem (h name List.mem_cons_self)]
    exact ih fun other hother ↦ h other (List.mem_cons_of_mem _ hother)

theorem internAll_append (names others : List String) :
    t.internAll (names ++ others) = (t.internAll names).internAll others :=
  List.foldl_append

end Interning

/-! ### Runs of calls -/

/-- A call of an interner: one name is interned, or all common ones are. -/
inductive Call where
  | intern (name : String)
  | internCommon

namespace Call

/-- The names that a call interns, in their order. -/
def names : Call → List String
  | intern name => [name]
  | internCommon => commonNames

/-- Carries out a call. It is answered with a symbol if it interns one name. -/
def apply : Call → StateM SymbolTable (Option Symbol)
  | intern name => fun t ↦ (some (t.intern name).1, (t.intern name).2)
  | internCommon => fun t ↦ (none, t.internAll commonNames)

end Call

/-- The answers to calls on the table of the empty name. -/
def answers (calls : List Call) : List (Option Symbol) :=
  ((calls.mapM Call.apply).run {}).1

/-- The table that calls leave of the one of the empty name. -/
def tableAfter (calls : List Call) : SymbolTable :=
  ((calls.mapM Call.apply).run {}).2

theorem snd_apply (call : Call) (t : SymbolTable) : (call.apply t).2 = t.internAll call.names := by
  cases call with
  | intern name => simp only [Call.apply, Call.names, internAll, List.foldl_cons, List.foldl_nil]
  | internCommon => simp only [Call.apply, Call.names]

theorem mapM_apply_cons (call : Call) (calls : List Call) (t : SymbolTable) :
    (call :: calls).mapM Call.apply t =
      ((call.apply t).1 :: (calls.mapM Call.apply (call.apply t).2).1,
        (calls.mapM Call.apply (call.apply t).2).2) := by
  rw [List.mapM_cons]
  rfl

theorem snd_mapM_apply (calls : List Call) (t : SymbolTable) :
    (calls.mapM Call.apply t).2 = t.internAll (calls.flatMap Call.names) := by
  induction calls generalizing t with
  | nil => rfl
  | cons call calls ih =>
    rw [mapM_apply_cons, ih, snd_apply, List.flatMap_cons, internAll_append]

/-- Calls intern their names in turn. -/
theorem tableAfter_eq_internAll (calls : List Call) :
    tableAfter calls = internAll {} (calls.flatMap Call.names) :=
  snd_mapM_apply calls {}

theorem holds_tableAfter (calls : List Call) :
    (tableAfter calls).Holds ("" :: calls.flatMap Call.names) := by
  rw [tableAfter_eq_internAll]
  exact holds_empty.internAll _

theorem tableAfter_append (calls later : List Call) :
    tableAfter (calls ++ later) = (tableAfter calls).internAll (later.flatMap Call.names) := by
  rw [tableAfter_eq_internAll, tableAfter_eq_internAll, List.flatMap_append, internAll_append]

/-- The answer to a call is the symbol that the name has when all calls are done. -/
theorem find?_of_getElem? {calls : List Call} {i : Nat} {name : String}
    (h : calls[i]? = some (.intern name)) (t : SymbolTable) :
    ∃ s, (calls.mapM Call.apply t).1[i]? = some (some s) ∧
      (calls.mapM Call.apply t).2.find? name = some s := by
  induction calls generalizing t i with
  | nil => simp at h
  | cons call calls ih =>
    rw [mapM_apply_cons]
    cases i with
    | zero =>
      obtain rfl : call = .intern name := by simpa using h
      refine ⟨(t.intern name).1, rfl, ?_⟩
      rw [snd_mapM_apply]
      exact find?_of_isPrefix (names_isPrefix_internAll _ _) (t.find?_intern_self name)
    | succ i => exact ih (by simpa using h) (call.apply t).2

end SymbolTable

/-! ### A map beside the names -/

/-- A table that keeps the symbols of its names in a map. -/
structure IndexedTable where
  symbolOf : String → Option Symbol
  names : Array String

namespace IndexedTable

/-- The table of the empty name. -/
def start : IndexedTable where
  symbolOf name := if name = "" then some .empty else none
  names := #[""]

/-- The symbol of a name. A name that the map does not know is entered in the map and added to the
end of the names. -/
def intern (x : IndexedTable) (name : String) : Symbol × IndexedTable :=
  match x.symbolOf name with
  | some s => (s, x)
  | none =>
    let s := Symbol.ofNat x.names.size
    (s, ⟨fun other ↦ if other = name then some s else x.symbolOf other, x.names.push name⟩)

/-- Interns a list of names in turn. -/
def internAll (x : IndexedTable) (names : List String) : IndexedTable :=
  names.foldl (fun x name ↦ (x.intern name).2) x

/-- The names are those of a table, and the map knows what a search of the table finds. -/
structure Agrees (x : IndexedTable) (t : SymbolTable) : Prop where
  names : x.names = t.names
  symbolOf (name : String) : x.symbolOf name = t.find? name

namespace Agrees

variable {x : IndexedTable} {t : SymbolTable} (h : x.Agrees t)

include h

/-- Interning gives the same symbol and keeps the agreement: the map changes for the new name
alone. -/
theorem intern (name : String) :
    (x.intern name).1 = (t.intern name).1 ∧ (x.intern name).2.Agrees (t.intern name).2 := by
  cases hfind : t.find? name with
  | some s =>
    rw [t.intern_of_find? hfind]
    simp only [IndexedTable.intern, h.symbolOf, hfind]
    exact ⟨trivial, h⟩
  | none =>
    have hsymbol : (t.intern name).1 = .ofNat x.names.size := by
      simp only [SymbolTable.intern, hfind, h.names]
      rfl
    have hnames : (t.intern name).2.names = x.names.push name := by
      simp only [SymbolTable.intern, hfind, h.names]
    simp only [IndexedTable.intern, h.symbolOf, hfind]
    refine ⟨hsymbol.symm, hnames.symm, fun other ↦ ?_⟩
    change (if other = name then _ else _) = _
    by_cases hother : other = name
    · rw [if_pos hother, hother, t.find?_intern_self, hsymbol]
    · rw [if_neg hother, t.find?_intern_of_ne hother]

theorem internAll (names : List String) : (x.internAll names).Agrees (t.internAll names) := by
  unfold IndexedTable.internAll SymbolTable.internAll
  induction names generalizing x t with
  | nil => exact h
  | cons name others ih => exact ih (h.intern name).2

end Agrees

theorem agrees_start : start.Agrees {} := by
  refine ⟨rfl, fun name ↦ ?_⟩
  by_cases hname : name = ""
  · subst hname
    rfl
  · have hnone : SymbolTable.find? {} name = none := by
      rw [SymbolTable.find?_eq_none_iff]
      simpa using hname
    rw [hnone]
    exact if_neg hname

end IndexedTable

namespace SymbolTable

/-! ### Names and symbols after a run -/

section Runs

variable {calls : List Call}

theorem find?_tableAfter_empty : (tableAfter calls).find? "" = some .empty := by
  rw [tableAfter_eq_internAll]
  exact find?_of_isPrefix (names_isPrefix_internAll _ _) rfl

theorem size_tableAfter :
    (tableAfter calls).size = ((calls.flatMap Call.names).toFinset.erase "").card + 1 := by
  rw [(holds_tableAfter calls).size_eq_card, List.toFinset_cons,
    ← Finset.card_erase_add_one (Finset.mem_insert_self _ _), Finset.erase_insert_eq_erase]

/-- A call that interns a name is answered with the place of the name, which is the first one for
the empty name alone. -/
theorem exists_answer (hsize : (tableAfter calls).size < UInt32.size) {i : Nat} {name : String}
    (hcall : calls[i]? = some (.intern name)) :
    ∃ s, (answers calls)[i]? = some (some s) ∧ (tableAfter calls).name? s = some name ∧
      s.toNat = (tableAfter calls).names.toList.idxOf name ∧ (s = .empty ↔ name = "") := by
  have hholds := holds_tableAfter calls
  obtain ⟨s, hs, hlast⟩ := find?_of_getElem? hcall {}
  replace hlast : (tableAfter calls).find? name = some s := hlast
  have hempty : (tableAfter calls).find? "" = some .empty := find?_tableAfter_empty
  have hname := (hholds.find?_eq_some_iff (Nat.le_of_lt hsize)).1 hlast
  refine ⟨s, hs, hname, ?_, fun heq ↦ ?_, fun heq ↦ ?_⟩
  · have hplace : (tableAfter calls).names.toList.idxOf? name = some s.toNat :=
      hholds.idxOf?_eq_some_iff.2 (by rwa [Array.getElem?_toList])
    rw [List.idxOf_eq_getD_idxOf?, hplace, Option.getD_some]
  · rw [hholds.find?_eq_some_iff (Nat.le_of_lt hsize), ← heq, hname] at hempty
    exact Option.some.inj hempty
  · rw [heq, hempty] at hlast
    exact (Option.some.inj hlast).symm

/-- The common names are interned once: a second time they are there. -/
theorem tableAfter_concat_internCommon (h : .internCommon ∈ calls) :
    tableAfter (calls ++ [.internCommon]) = tableAfter calls := by
  rw [tableAfter_append]
  refine internAll_of_forall_mem _ fun name hname ↦ ?_
  rw [(holds_tableAfter calls).mem_iff]
  exact List.mem_cons_of_mem _ (List.mem_flatMap.2 ⟨_, h, by simpa using hname⟩)

end Runs

/-- Symbols and names determine each other, and calls number names in the order in which they come.
After every run of calls that 32 bits can number, the table holds the empty name and the names of
the calls, each once and where it comes first, so that there is one more name than different names
that are not empty. A call that interns a name was answered with the place of the name in this
table, which is the first place for the empty name and for no other. A name has a symbol if and only
if the symbol stands for the name, and a symbol stands for its name whatever is called later. To
intern a name that is there, or the common names once more, changes nothing, and a symbol beyond the
table stands for the empty name. A table with a map beside its names has the same names, finds the
same symbols and answers alike. -/
theorem symbols_bijective (calls : List Call) (hsize : (tableAfter calls).size < UInt32.size) :
    (tableAfter calls).names.toList = ("" :: calls.flatMap Call.names).eraseDups ∧
      (tableAfter calls).size = ((calls.flatMap Call.names).toFinset.erase "").card + 1 ∧
      (∀ (i : Nat) name, calls[i]? = some (.intern name) →
        ∃ s, (answers calls)[i]? = some (some s) ∧ (tableAfter calls).name? s = some name ∧
          s.toNat = (tableAfter calls).names.toList.idxOf name ∧ (s = .empty ↔ name = "")) ∧
      (∀ s name, (tableAfter calls).find? name = some s ↔
        (tableAfter calls).name? s = some name) ∧
      (∀ later s name, (tableAfter calls).name? s = some name →
        (tableAfter (calls ++ later)).name? s = some name) ∧
      (∀ name ∈ (tableAfter calls).names,
        ((tableAfter calls).intern name).2 = tableAfter calls) ∧
      (.internCommon ∈ calls → tableAfter (calls ++ [.internCommon]) = tableAfter calls) ∧
      (∀ s : Symbol, (tableAfter calls).size ≤ s.toNat →
        (tableAfter calls).name? s = none ∧ (tableAfter calls).name s = "") ∧
      (IndexedTable.start.internAll (calls.flatMap Call.names)).Agrees (tableAfter calls) ∧
      ∀ name, ((IndexedTable.start.internAll (calls.flatMap Call.names)).intern name).1 =
        ((tableAfter calls).intern name).1 := by
  have hholds := holds_tableAfter calls
  have hagrees : (IndexedTable.start.internAll (calls.flatMap Call.names)).Agrees
      (tableAfter calls) := by
    rw [tableAfter_eq_internAll]
    exact IndexedTable.agrees_start.internAll _
  refine ⟨hholds, size_tableAfter, fun i name ↦ exists_answer hsize, fun s name ↦ ?_,
    fun later s name hname ↦ ?_, fun name ↦ intern_of_mem _, tableAfter_concat_internCommon,
    fun s hs ↦ ?_, hagrees, fun name ↦ (hagrees.intern name).1⟩
  · exact hholds.find?_eq_some_iff (Nat.le_of_lt hsize)
  · rw [tableAfter_append]
    exact name?_of_isPrefix (names_isPrefix_internAll _ _) hname
  · have hnone : (tableAfter calls).name? s = none := Array.getElem?_eq_none hs
    exact ⟨hnone, by rw [name, hnone, Option.getD_none]⟩

/-- A common name comes before the common names, the empty one and another come behind them, and the
first comes once more. -/
def repeatingCalls : List Call :=
  [.intern "value", .internCommon, .intern "", .intern "size", .intern "value"]

theorem symbols_repeatingCalls :
    (tableAfter repeatingCalls).size = 22 ∧
      answers repeatingCalls = [some ⟨1⟩, none, some ⟨0⟩, some ⟨21⟩, some ⟨1⟩] ∧
      (∀ s name, (tableAfter repeatingCalls).find? name = some s ↔
        (tableAfter repeatingCalls).name? s = some name) ∧
      tableAfter (repeatingCalls ++ [.internCommon]) = tableAfter repeatingCalls := by
  have hsize : (tableAfter repeatingCalls).size = 22 := by decide +kernel
  have hwords : (tableAfter repeatingCalls).size < UInt32.size := by
    rw [hsize]
    decide
  obtain ⟨-, -, -, hfind, -, -, hcommon, -⟩ := symbols_bijective repeatingCalls hwords
  exact ⟨hsize, by decide +kernel, hfind, hcommon (by simp [repeatingCalls])⟩

end SymbolTable

end BoundNames

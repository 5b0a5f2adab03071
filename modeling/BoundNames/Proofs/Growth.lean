import BoundNames.Proofs.Pools
import BoundNames.Proofs.Symbols

/-!
# Growing arenas

What one addition does to an arena: the header goes to the end of the headers, the stored shape to
the end of its pool, and the name of an identifier into the table. Nothing that was there is lost or
moved, which is the relation `Extends`: each header, each entry of a pool and each name keeps its
place. So a handle that led to a node and its data leads to the same ones later (`Extends.header?`,
`Extends.shape?`). `Builds` says that an arena comes from another by additions alone.
-/

set_option autoImplicit false
set_option relaxedAutoImplicit false

namespace BoundNames.Arena

/-- The shape that is stored for a draft: children that are not admitted are absent, and an
identifier has the symbol of its name. -/
def stored (a : Arena) (draft : Draft) : Shape Symbol :=
  (Draft.intern (draft.mapChildren a.keep) a.symbols).1

theorem kind_stored (a : Arena) (draft : Draft) : (a.stored draft).kind = draft.kind := by
  rw [stored, Draft.kind_intern, Shape.kind_mapChildren]

theorem children_stored (a : Arena) (draft : Draft) :
    (a.stored draft).children = draft.children.map a.keep := by
  rw [stored, Draft.children_intern, Shape.children_mapChildren]

/-- A child that is kept is absent or precedes the node that is added. -/
theorem eq_absent_or_toNat_keep_lt (a : Arena) (child : Handle) :
    a.keep child = .absent ∨ (a.keep child).toNat < a.size := by
  simpa [admits, Handle.isAbsent_iff] using a.admits_keep child

/-! ### The parts of an arena after an addition -/

theorem headers_add (a : Arena) (span : Span) (draft : Draft) :
    (a.add span draft).2.headers =
      a.headers.push ⟨draft.kind, span, .ofNat (a.pools.count draft.kind.family)⟩ := by
  rw [← a.kind_stored draft, ← Pools.fst_insert, kind_stored]
  rfl

theorem header?_add_self {a : Arena} (span : Span) (draft : Draft)
    (hsize : a.size < UInt32.size - 1) :
    (a.add span draft).2.header? (.ofNat a.size) =
      some ⟨draft.kind, span, .ofNat (a.pools.count draft.kind.family)⟩ := by
  rw [header?_eq_some_iff, Handle.ne_absent_iff, Handle.toNat_ofNat_of_lt (by omega), headers_add]
  exact ⟨hsize, Array.getElem?_push_size⟩

theorem pools_add (a : Arena) (span : Span) (draft : Draft) :
    (a.add span draft).2.pools = (a.pools.insert (a.stored draft)).2 := rfl

theorem symbols_add (a : Arena) (span : Span) (draft : Draft) :
    (a.add span draft).2.symbols = (Draft.intern (draft.mapChildren a.keep) a.symbols).2 := rfl

theorem parents_add (a : Arena) (span : Span) (draft : Draft) :
    (a.add span draft).2.parents =
      (a.stored draft).children.foldl (adopt (.ofNat a.size)) (a.parents.push .absent) :=
  foldl_adopt_adopted _ _ (a.stored draft)

theorem size_foldl_adopt (node : Handle) (children : List Handle) (parents : Array Handle) :
    (children.foldl (adopt node) parents).size = parents.size := by
  induction children generalizing parents with
  | nil => rfl
  | cons child others ih =>
    rw [List.foldl_cons, ih, adopt]
    split
    · rfl
    · exact Array.size_setIfInBounds

/-- Entering parents changes the parent of no node but the children. -/
theorem getElem?_foldl_adopt (node : Handle) (children : List Handle) (parents : Array Handle)
    {i : Nat} (h : ∀ c ∈ children, c = .absent ∨ c.toNat ≠ i) :
    (children.foldl (adopt node) parents)[i]? = parents[i]? := by
  induction children generalizing parents with
  | nil => rfl
  | cons child others ih =>
    rw [List.foldl_cons, ih _ fun c hc ↦ h c (List.mem_cons_of_mem _ hc), adopt]
    split
    · rfl
    · next habsent =>
      have hne := (h child List.mem_cons_self).resolve_left (mt Handle.isAbsent_iff.2 habsent)
      exact Array.getElem?_setIfInBounds_ne hne

/-! ### What growing keeps -/

/-- The arena `b` has every header, every entry of a pool and every name of `a` at its place. -/
structure Extends (a b : Arena) : Prop where
  headers : a.headers.toList <+: b.headers.toList
  payloads (k : Kind) (i : Nat) (hi : i < a.pools.count k.family) :
    b.pools.payload? k i = a.pools.payload? k i
  names : a.symbols.names.toList <+: b.symbols.names.toList

namespace Extends

variable {a b c : Arena}

protected theorem refl (a : Arena) : a.Extends a :=
  ⟨List.prefix_refl _, fun _ _ _ ↦ rfl, List.prefix_refl _⟩

protected theorem trans (hab : a.Extends b) (hbc : b.Extends c) : a.Extends c where
  headers := hab.headers.trans hbc.headers
  payloads k i hi := by
    have hb : i < b.pools.count k.family := by
      rw [← Nat.not_le, ← Pools.payload?_eq_none_iff, hab.payloads k i hi,
        Pools.payload?_eq_none_iff, Nat.not_le]
      exact hi
    rw [hbc.payloads k i hb, hab.payloads k i hi]
  names := hab.names.trans hbc.names

theorem header? (h : a.Extends b) {node : Handle} {n : Header} (hn : a.header? node = some n) :
    b.header? node = some n := by
  rw [header?_eq_some_iff, ← Array.getElem?_toList] at hn ⊢
  obtain ⟨others, hothers⟩ := h.headers
  refine ⟨hn.1, ?_⟩
  rw [← hothers, List.getElem?_append_left (List.getElem?_eq_some_iff.1 hn.2).1]
  exact hn.2

theorem shape? (h : a.Extends b) {node : Handle} {s : Shape Symbol}
    (hs : a.shape? node = some s) : b.shape? node = some s := by
  obtain ⟨n, hn, hs⟩ := Option.bind_eq_some_iff.1 hs
  refine Option.bind_eq_some_iff.2 ⟨n, h.header? hn, ?_⟩
  rw [Pools.shape?_eq_payload?] at hs ⊢
  split at hs
  · next hdata =>
    have hslot : n.slot.toNat < a.pools.count n.kind.family := by
      rw [← Nat.not_le, ← Pools.payload?_eq_none_iff, hs]
      simp
    rw [if_pos hdata, h.payloads _ _ hslot, hs]
  · cases hs

theorem name (h : a.Extends b) {s : Symbol} (hs : s.toNat < a.symbols.size) :
    b.symbols.name s = a.symbols.name s :=
  SymbolTable.name_of_isPrefix h.names hs

end Extends

theorem names_isPrefix_add (a : Arena) (span : Span) (draft : Draft) :
    a.symbols.names.toList <+: (a.add span draft).2.symbols.names.toList := by
  rw [symbols_add]
  cases draft with
  | identifier name => exact SymbolTable.names_isPrefix_intern a.symbols name
  | _ => exact List.prefix_refl _

theorem extends_add (a : Arena) (span : Span) (draft : Draft) :
    a.Extends (a.add span draft).2 where
  headers := by
    rw [headers_add, Array.toList_push]
    exact List.prefix_append _ _
  payloads k i hi := by
    rw [pools_add]
    exact Pools.payload?_insert_of_lt hi _
  names := names_isPrefix_add a span draft

/-! ### Runs of additions -/

/-- The arena `b` comes from `a` by additions. -/
inductive Builds (a : Arena) : Arena → Prop where
  | refl : Builds a a
  | add {b : Arena} (h : Builds a b) (span : Span) (draft : Draft) :
    Builds a (b.add span draft).2

namespace Builds

variable {a b c : Arena}

protected theorem trans (hab : a.Builds b) (hbc : b.Builds c) : a.Builds c := by
  induction hbc with
  | refl => exact hab
  | add _ span draft ih => exact ih.add span draft

theorem toExtends (h : a.Builds b) : a.Extends b := by
  induction h with
  | refl => exact Extends.refl a
  | add _ span draft ih => exact ih.trans (extends_add _ span draft)

/-- What holds of an arena and is kept by every addition holds after a run of additions. -/
theorem preserves (h : a.Builds b) {P : Arena → Prop}
    (hadd : ∀ c span draft, P c → P (c.add span draft).2) (ha : P a) : P b := by
  induction h with
  | refl => exact ha
  | add _ span draft ih => exact hadd _ span draft ih

end Builds

end BoundNames.Arena

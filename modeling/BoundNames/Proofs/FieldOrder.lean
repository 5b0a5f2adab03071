import BoundNames.Extraction
import BoundNames.Proofs.Correspondence
import Mathlib.Logic.Relation

/-!
# The order of fields

Objects are lists of fields, and the order of the list is kept. Where the names of the fields are
distinct, a field is the same in whatever order they stand (`Json.field?_eq_of_perm`). A
rearrangement puts the fields of one object into another order, at any depth (`Json.Rearranges`). It
leaves out one place, the field `value` of a literal without a text `raw`: this field is written out
as it stands, and the order shows.

Lowering takes the same steps before and after a rearrangement: the two values correspond, with
equality for both relations (`Json.Rearranges.corresponds`). So any number of rearrangements changes
nothing about what is extracted, neither a handle nor a symbol nor an event
(`extracted_eq_of_rearranges`), and no bound on the size of the arena is needed for that.
-/

set_option autoImplicit false
set_option relaxedAutoImplicit false

namespace BoundNames

namespace Json

open Lowering (Simulation Corresponds Related)

/-- Fields of distinct names are found in whatever order they stand. -/
theorem field?_eq_of_perm {fields fields' : List (String × Json)} (hperm : fields.Perm fields')
    (hkeys : (fields.map Prod.fst).Nodup) (key : String) :
    field? key fields' = field? key fields := by
  induction hperm with
  | nil => rfl
  | cons head _ ih => rw [field?, field?, ih (List.nodup_cons.1 hkeys).2]
  | swap first second others =>
    have hne : second.1 ≠ first.1 := fun heq ↦
      (List.nodup_cons.1 hkeys).1 (List.mem_cons.2 (.inl heq))
    by_cases hfirst : first.1 = key
    · have hsecond : second.1 ≠ key := hfirst ▸ hne
      simp only [field?, if_pos hfirst, if_neg hsecond]
    · simp only [field?, if_neg hfirst]
  | trans hfirst _ ih ih' =>
    exact (ih' ((hfirst.map Prod.fst).nodup_iff.1 hkeys)).trans (ih hkeys)

/-- A rearrangement at one place: the fields of an object with distinct names change their order, in
the value itself, within one of its fields or within one of its items, but not within a field that
is written out. -/
inductive Rearranges : Json → Json → Prop where
  | fields {fields fields' : List (String × Json)} (hperm : fields.Perm fields')
    (hkeys : (fields.map Prod.fst).Nodup) : Rearranges (object fields) (object fields')
  | within (before after : List (String × Json)) (key : String) {v w : Json}
    (hvalue : key = "value" → ¬ WritesValue (before ++ (key, v) :: after)) (h : Rearranges v w) :
    Rearranges (object (before ++ (key, v) :: after)) (object (before ++ (key, w) :: after))
  | item (before after : List Json) {v w : Json} (h : Rearranges v w) :
    Rearranges (array (before ++ v :: after)) (array (before ++ w :: after))

/-- Every step takes equal sessions to equal ones. -/
theorem simulation_eq : Simulation Eq Eq where
  nil := rfl
  cons child _ _ h := congrArg (child :: ·) h
  report _ _ _ hs := hs ▸ ⟨rfl, rfl⟩
  add _ _ _ _ hs := hs ▸ ⟨rfl, rfl⟩
  addArray _ _ _ h _ _ hs := h ▸ hs ▸ ⟨rfl, rfl⟩
  addObject _ _ _ h _ _ hs := h ▸ hs ▸ ⟨rfl, rfl⟩
  addImport _ _ _ h _ _ _ hs := h ▸ hs ▸ ⟨rfl, rfl⟩

/-- Values that differ by a rearrangement are read and lowered by the same steps. -/
theorem Rearranges.corresponds {v w : Json} (h : Rearranges v w) : Corresponds Eq Eq v w := by
  induction h with
  | fields hperm hkeys =>
    exact Lowering.corresponds_of_field?_eq simulation_eq (field?_eq_of_perm hperm hkeys)
  | within before after key hvalue _ ih => exact ih.within simulation_eq before after key hvalue
  | item before after _ ih => exact ih.item simulation_eq before after

end Json

namespace Extraction

open Lowering (rootType lower)

/-- Values that are lowered by the same steps have the same tree. -/
theorem tree_eq_of_corresponds {v w : Json} (h : Lowering.Corresponds Eq Eq v w) :
    tree v = tree w := by
  obtain ⟨hroot, hsession⟩ := h.node { arena := .prepared } _ rfl
  have hlower : lower v { arena := .prepared } = lower w { arena := .prepared } :=
    Prod.ext hroot hsession
  unfold tree StateT.run
  rw [h.rootType, hlower]

/-- However many objects of a value have their fields rearranged, and wherever they stand in it, the
tree is rejected for the same cause, or it has the same root in the same arena: headers, parents,
data and symbols. So the identifiers and the names that are extracted are the same too, and so is
all that is reported. -/
theorem extracted_eq_of_rearranges {v w : Json}
    (h : Relation.ReflTransGen Json.Rearranges v w) :
    tree v = tree w ∧ identifiers v = identifiers w ∧ names v = names w := by
  have htree : tree v = tree w := by
    induction h with
    | refl => rfl
    | tail _ hstep ih => exact ih.trans (tree_eq_of_corresponds hstep.corresponds)
  have hidentifiers : identifiers v = identifiers w := by rw [identifiers, identifiers, htree]
  exact ⟨htree, hidentifiers, by rw [names, names, hidentifiers]⟩

/-- The fields of a pattern of a name and a literal with a text of its own, for the fields of the
name and of the value of the literal. -/
def pairFields (name value : List (String × Json)) : List (String × Json) :=
  [("type", "ArrayPattern"), ("elements", .array [.object name,
    .object [("type", "Literal"), ("raw", "0"), ("value", .object value)]])]

/-- The fields of a name with a span. -/
def nameFields : List (String × Json) :=
  [("type", "Identifier"), ("name", "a"), ("start", .ofNat 1), ("end", .ofNat 2)]

/-- The fields of a value that is no text. -/
def valueFields : List (String × Json) :=
  [("p", .null), ("q", true)]

/-- The fields of the name, of the value of the literal and of the pattern itself are turned
around. -/
theorem extracted_pairFields :
    tree (.object (pairFields nameFields valueFields)) =
        tree (.object (pairFields nameFields.reverse valueFields.reverse).reverse) ∧
      (names (.object (pairFields nameFields valueFields))).value = .ok ["a"] ∧
      (names (.object (pairFields nameFields.reverse valueFields.reverse).reverse)).value =
        .ok ["a"] := by
  have hreverse : ∀ fields : List (String × Json), (fields.map Prod.fst).Nodup →
      Json.Rearranges (.object fields) (.object fields.reverse) :=
    fun fields hkeys ↦ .fields fields.reverse_perm.symm hkeys
  have hname : Json.Rearranges (.object (pairFields nameFields valueFields))
      (.object (pairFields nameFields.reverse valueFields)) :=
    .within [_] [] "elements" (fun heq ↦ absurd heq (by decide))
      (.item [] [_] (hreverse nameFields (by decide)))
  have hvalue : Json.Rearranges (.object (pairFields nameFields.reverse valueFields))
      (.object (pairFields nameFields.reverse valueFields.reverse)) :=
    .within [_] [] "elements" (fun heq ↦ absurd heq (by decide))
      (.item [_] [] (.within [_, _] [] "value" (fun _ h ↦ nomatch h.2)
        (hreverse valueFields (by decide))))
  have houter := hreverse (pairFields nameFields.reverse valueFields.reverse) (by decide)
  obtain ⟨htree, -, hnames⟩ :=
    extracted_eq_of_rearranges ((Relation.ReflTransGen.single hname).tail hvalue |>.tail houter)
  have hv : (names (.object (pairFields nameFields valueFields))).value = .ok ["a"] := rfl
  exact ⟨htree, hv, hnames ▸ hv⟩

end Extraction

end BoundNames

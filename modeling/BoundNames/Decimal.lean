/-!
# Decimals of binary64 values

A positive binary64 value is an integer `m` times a power of two, and every real number of a known
interval around it is rounded to it. The shortest decimal of the value is the number `digits · 10 ^
scale` of that interval with the greatest scale; where the interval holds two neighbours of one
scale the nearer is taken, and at equal distance the even one. Both neighbours of the value on each
decimal grid are compared with the ends of the interval in exact integer arithmetic. If neither lies
in the interval then no number of the grid does (`Binary64.onGrid?_eq_none_iff`), so what is found
reads back and nothing on a coarser grid does (`Binary64.search_eq_some`).

The digits are written with a point among them as long as the decimal exponent stays in a given
range, and in scientific notation beyond it.
-/

set_option autoImplicit false
set_option relaxedAutoImplicit false

namespace BoundNames

/-- The magnitude of a finite binary64 value, `m · 2 ^ q`. The flag tells that the next smaller
value is only half as far away as the next greater one. -/
structure Binary64 where
  m : Nat
  q : Int
  narrowBelow : Bool
deriving DecidableEq

/-- The decimal number `digits · 10 ^ scale`. -/
structure Decimal where
  digits : Nat
  scale : Int
deriving DecidableEq

namespace Binary64

/-- The magnitude that the bits of a finite binary64 value stand for. -/
def ofBits (bits : UInt64) : Binary64 :=
  let fraction := (bits &&& 0xFFFFFFFFFFFFF).toNat
  let exponent := ((bits >>> 52) &&& 0x7FF).toNat
  if exponent = 0 then ⟨fraction, -1074, false⟩
  else ⟨0x10000000000000 + fraction, (exponent : Int) - 1075, fraction = 0 && 1 < exponent⟩

/-- The value measured in quarters of `2 ^ q` on the grid of the multiples of `10 ^ k`: a multiple
`c · 10 ^ k` compares with `x / 4 · 2 ^ q` as `c * (grid k).2` compares with `x * (grid k).1`. -/
def grid (b : Binary64) (k : Int) : Nat × Nat :=
  (Nat.pow 2 (b.q - 2).toNat * Nat.pow 10 (-k).toNat,
    Nat.pow 2 (2 - b.q).toNat * Nat.pow 10 k.toNat)

/-- Whether reading `c · 10 ^ k` gives the value: it lies between the two midpoints, which belong
to the interval exactly if `m` is even. -/
def holds (b : Binary64) (k : Int) (c : Nat) : Bool :=
  let (unit, step) := b.grid k
  let low := (4 * b.m - if b.narrowBelow then 1 else 2) * unit
  let high := (4 * b.m + 2) * unit
  let x := c * step
  if b.m % 2 = 0 then low ≤ x && x ≤ high else low < x && x < high

/-- The multiple of `10 ^ k` that stands for the value, if there is one. -/
def onGrid? (b : Binary64) (k : Int) : Option Nat :=
  let (unit, step) := b.grid k
  let x := 4 * b.m * unit
  let below := x / step
  let above := below + 1
  match b.holds k below, b.holds k above with
  | false, false => none
  | true, false => some below
  | false, true => some above
  | true, true =>
    let toBelow := x - below * step
    let toAbove := above * step - x
    if toBelow < toAbove then some below
    else if toAbove < toBelow then some above
    else if below % 2 = 0 then some below else some above

/-- The first grid with a number that reads back, among `tries` grids from `10 ^ k` downwards. -/
def search (b : Binary64) : Nat → Int → Option Decimal
  | 0, _ => none
  | tries + 1, k =>
    match b.onGrid? k with
    | some digits => some ⟨digits, k⟩
    | none => b.search tries (k - 1)

/-- A power of ten, by its exponent, that exceeds the value. -/
def ceiling (b : Binary64) : Int :=
  ((b.m.log2 : Int) + b.q) * 30103 / 100000 + 2

/-- The shortest decimal of a positive value: seventeen digits always suffice. -/
def shortest (b : Binary64) : Decimal :=
  (b.search 20 b.ceiling).getD ⟨0, 0⟩

/-! ### What the search finds -/

theorem grid_fst_pos (b : Binary64) (k : Int) : 0 < (b.grid k).1 :=
  Nat.mul_pos (Nat.pow_pos (by decide)) (Nat.pow_pos (by decide))

theorem grid_snd_pos (b : Binary64) (k : Int) : 0 < (b.grid k).2 :=
  Nat.mul_pos (Nat.pow_pos (by decide)) (Nat.pow_pos (by decide))

/-- With a number that reads back, so do all between it and the value. -/
theorem holds_of_between {b : Binary64} {k : Int} {c d : Nat} (h : b.holds k c = true)
    (hd : c * (b.grid k).2 ≤ d * (b.grid k).2 ∧ d * (b.grid k).2 ≤ 4 * b.m * (b.grid k).1 ∨
      4 * b.m * (b.grid k).1 ≤ d * (b.grid k).2 ∧ d * (b.grid k).2 ≤ c * (b.grid k).2) :
    b.holds k d = true := by
  have hunit := b.grid_fst_pos k
  have hhigh : 4 * b.m * (b.grid k).1 < (4 * b.m + 2) * (b.grid k).1 :=
    Nat.mul_lt_mul_of_pos_right (by omega) hunit
  simp only [holds] at h ⊢
  -- The value lies within its interval, and strictly so where the ends do not belong to it.
  by_cases heven : b.m % 2 = 0
  · have hlow : (4 * b.m - if b.narrowBelow then 1 else 2) * (b.grid k).1 ≤
        4 * b.m * (b.grid k).1 :=
      Nat.mul_le_mul_right _ (Nat.sub_le _ _)
    simp only [heven, if_true, Bool.and_eq_true, decide_eq_true_eq] at h ⊢
    omega
  · have hlow : (4 * b.m - if b.narrowBelow then 1 else 2) * (b.grid k).1 <
        4 * b.m * (b.grid k).1 :=
      Nat.mul_lt_mul_of_pos_right (by split <;> omega) hunit
    simp only [heven, if_false, Bool.and_eq_true, decide_eq_true_eq] at h ⊢
    omega

theorem onGrid?_eq_none_or (b : Binary64) (k : Int) :
    (b.onGrid? k = none ∧ b.holds k (4 * b.m * (b.grid k).1 / (b.grid k).2) = false ∧
        b.holds k (4 * b.m * (b.grid k).1 / (b.grid k).2 + 1) = false) ∨
      ∃ c, b.onGrid? k = some c ∧ b.holds k c = true := by
  simp only [onGrid?]
  split
  · next hbelow habove => exact .inl ⟨rfl, hbelow, habove⟩
  · next hbelow _ => exact .inr ⟨_, rfl, hbelow⟩
  · next _ habove => exact .inr ⟨_, rfl, habove⟩
  · next hbelow habove =>
    split
    · exact .inr ⟨_, rfl, hbelow⟩
    · split
      · exact .inr ⟨_, rfl, habove⟩
      · split
        · exact .inr ⟨_, rfl, hbelow⟩
        · exact .inr ⟨_, rfl, habove⟩

theorem holds_of_onGrid? {b : Binary64} {k : Int} {c : Nat} (h : b.onGrid? k = some c) :
    b.holds k c = true := by
  obtain ⟨hnone, -⟩ | ⟨d, hd, hholds⟩ := b.onGrid?_eq_none_or k
  · simp [h] at hnone
  · obtain rfl : d = c := by simpa [hd] using h
    exact hholds

/-- A grid has no number that reads back if the two neighbours of the value do not. -/
theorem onGrid?_eq_none_iff {b : Binary64} {k : Int} :
    b.onGrid? k = none ↔ ∀ c, b.holds k c = false := by
  constructor
  · intro hnone c
    obtain ⟨-, hbelow, habove⟩ | ⟨d, hd, -⟩ := b.onGrid?_eq_none_or k
    · have hstep := b.grid_snd_pos k
      generalize hx : 4 * b.m * (b.grid k).1 = x at hbelow habove
      rw [← Bool.not_eq_true]
      intro hc
      -- Below the value the lower neighbour is the nearest multiple, above it the upper one.
      by_cases hle : c ≤ x / (b.grid k).2
      · refine Bool.false_ne_true (hbelow.symm.trans (holds_of_between hc (.inl ⟨?_, ?_⟩)))
        · exact Nat.mul_le_mul_right _ hle
        · rw [hx]
          exact Nat.div_mul_le_self x _
      · refine Bool.false_ne_true (habove.symm.trans (holds_of_between hc (.inr ⟨?_, ?_⟩)))
        · rw [hx, Nat.mul_comm]
          exact Nat.le_of_lt (Nat.lt_mul_div_succ x hstep)
        · exact Nat.mul_le_mul_right _ (by omega)
    · simp [hd] at hnone
  · intro hall
    cases hc : b.onGrid? k with
    | none => rfl
    | some c => exact absurd (holds_of_onGrid? hc) (by simp [hall c])

/-- What is found reads back, and no number of a coarser grid that was tried does. -/
theorem search_eq_some {b : Binary64} {tries : Nat} {k : Int} {d : Decimal}
    (h : b.search tries k = some d) :
    d.scale ≤ k ∧ b.holds d.scale d.digits = true ∧
      ∀ j, d.scale < j → j ≤ k → ∀ c, b.holds j c = false := by
  induction tries generalizing k with
  | zero => simp [search] at h
  | succ tries ih =>
    simp only [search] at h
    split at h
    · next digits hdigits =>
      obtain rfl := Option.some.inj h
      exact ⟨Int.le_refl k, holds_of_onGrid? hdigits, fun j hlt hle ↦
        absurd (Int.lt_of_lt_of_le hlt hle) (Int.lt_irrefl k)⟩
    · next hnone =>
      obtain ⟨hscale, hholds, hcoarser⟩ := ih h
      refine ⟨by omega, hholds, fun j hlt hle ↦ ?_⟩
      by_cases hj : j = k
      · exact hj ▸ onGrid?_eq_none_iff.1 hnone
      · exact hcoarser j hlt (by omega)

example : (ofBits 0x3FB999999999999A).shortest = ⟨1, -1⟩ := by decide +kernel

end Binary64

namespace Decimal

/-- The decisions of a number format. A number is written with a point among its digits if the
exponent of its leading digit lies between `least` and `greatest`; `wholeTail` ends a number that
has no fraction; `mark` and `plus` stand before an exponent, `plus` only before one that is not
negative. -/
structure Layout where
  least : Int
  greatest : Int
  wholeTail : String
  mark : String
  plus : String

namespace Layout

/-- Writes the positive number `d`. -/
def write (l : Layout) (d : Decimal) : String :=
  let text := Nat.toDigits 10 d.digits
  let exponent := d.scale + (text.length : Int) - 1
  if l.least ≤ exponent ∧ exponent ≤ l.greatest then
    if 0 ≤ d.scale then
      String.ofList text ++ "".pushn '0' d.scale.toNat ++ l.wholeTail
    else if 0 ≤ exponent then
      let whole := exponent.toNat + 1
      String.ofList (text.take whole) ++ "." ++ String.ofList (text.drop whole)
    else
      "0." ++ "".pushn '0' ((-exponent).toNat - 1) ++ String.ofList text
  else
    let fraction := String.ofList (text.drop 1)
    String.ofList (text.take 1) ++ (if fraction.isEmpty then "" else "." ++ fraction) ++ l.mark
      ++ (if 0 ≤ exponent then l.plus else "") ++ toString exponent

end Layout

end Decimal

end BoundNames

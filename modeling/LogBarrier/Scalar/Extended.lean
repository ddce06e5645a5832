import LogBarrier.Scalar
import Mathlib.Analysis.SpecialFunctions.Log.Basic

/-!
# Extended real scalars

Exact arithmetic as a scalar type. An extended scalar is a real number, one of two infinities, or
not a number. The algorithms are read over it wherever rounding is to be left out.

## Rules

Real arguments give the real result wherever there is one. The other results are those of binary
floating point with a single zero, which counts as positive: a quotient by zero is infinite with the
sign of the numerator, a difference of equal infinities and a product of zero and an infinity are
not numbers, and a comparison with something that is not a number is false.
-/

namespace LogBarrier

/-- A real number, an infinity, or not a number. -/
inductive Extended where
  /-- A real number. -/
  | real (x : ℝ)
  /-- Positive infinity. -/
  | posInf
  /-- Negative infinity. -/
  | negInf
  /-- Not a number. -/
  | nan

namespace Extended

noncomputable section

open Classical

/-! ## Operations -/

/-- The sum of two scalars. -/
protected def add : Extended → Extended → Extended
  | real x, real y => real (x + y)
  | nan, _ | _, nan | posInf, negInf | negInf, posInf => nan
  | posInf, _ | _, posInf => posInf
  | negInf, _ | _, negInf => negInf

/-- The scalar of opposite sign. -/
protected def neg : Extended → Extended
  | real x => real (-x)
  | posInf => negInf
  | negInf => posInf
  | nan => nan

/-- Positive infinity multiplied by a real number. -/
def infinityTimes (x : ℝ) : Extended :=
  if 0 < x then posInf else if x < 0 then negInf else nan

/-- The product of two scalars. -/
protected def mul : Extended → Extended → Extended
  | real x, real y => real (x * y)
  | nan, _ | _, nan => nan
  | real x, posInf | posInf, real x => infinityTimes x
  | real x, negInf | negInf, real x => infinityTimes (-x)
  | posInf, posInf | negInf, negInf => posInf
  | posInf, negInf | negInf, posInf => negInf

/-- The quotient of two scalars. -/
protected def div : Extended → Extended → Extended
  | real x, real y => if y = 0 then infinityTimes x else real (x / y)
  | nan, _ | _, nan => nan
  | real _, posInf | real _, negInf => real 0
  | posInf, real y => if y < 0 then negInf else posInf
  | negInf, real y => if y < 0 then posInf else negInf
  | _, _ => nan

/-- The strict order. -/
protected def lt : Extended → Extended → Prop
  | real x, real y => x < y
  | real _, posInf | negInf, real _ | negInf, posInf => True
  | _, _ => False

/-- The order. -/
protected def le : Extended → Extended → Prop
  | real x, real y => x ≤ y
  | real _, posInf | negInf, real _ | negInf, posInf | posInf, posInf | negInf, negInf => True
  | _, _ => False

/-- Whether two scalars are equal numbers. -/
protected def beq : Extended → Extended → Bool
  | real x, real y => decide (x = y)
  | posInf, posInf | negInf, negInf => true
  | _, _ => false

/-- The larger of two scalars, ignoring one which is not a number. -/
def maxNum : Extended → Extended → Extended
  | nan, b => b
  | a, nan => a
  | real x, real y => real (max x y)
  | posInf, _ | _, posInf => posInf
  | negInf, b => b
  | a, negInf => a

/-- The smaller of two scalars, ignoring one which is not a number. -/
def minNum : Extended → Extended → Extended
  | nan, b => b
  | a, nan => a
  | real x, real y => real (min x y)
  | negInf, _ | _, negInf => negInf
  | posInf, b => b
  | a, posInf => a

/-- The absolute value. -/
def abs : Extended → Extended
  | real x => real |x|
  | posInf | negInf => posInf
  | nan => nan

/-- The square root, which is not a number for negative scalars. -/
def sqrt : Extended → Extended
  | real x => if x < 0 then nan else real (Real.sqrt x)
  | posInf => posInf
  | negInf | nan => nan

/-- The natural logarithm, which is not a number for negative scalars. -/
def ln : Extended → Extended
  | real x => if 0 < x then real (Real.log x) else if x = 0 then negInf else nan
  | posInf => posInf
  | negInf | nan => nan

/-- The exponential function. -/
def exp : Extended → Extended
  | real x => real (Real.exp x)
  | posInf => posInf
  | negInf => real 0
  | nan => nan

/-- The magnitude of the first scalar with the sign of the second. -/
def copySign (a : Extended) : Extended → Extended
  | real y => if y < 0 then Extended.neg a.abs else a.abs
  | negInf => Extended.neg a.abs
  | posInf | nan => a.abs

/-- Whether the scalar is a real number. -/
def isFinite : Extended → Bool
  | real _ => true
  | _ => false

instance : Scalar Extended where
  zero := real 0
  one := real 1
  add := Extended.add
  neg := Extended.neg
  sub a b := Extended.add a (Extended.neg b)
  mul := Extended.mul
  div := Extended.div
  lt := Extended.lt
  le := Extended.le
  beq := Extended.beq
  natCast n := real n
  ofScientific m s e := real (OfScientific.ofScientific m s e)
  decLt _ _ := inferInstanceAs (Decidable (Extended.lt _ _))
  decLe _ _ := inferInstanceAs (Decidable (Extended.le _ _))
  maxNum := maxNum
  minNum := minNum
  abs := abs
  sqrt := sqrt
  ln := ln
  exp := exp
  copySign := copySign
  isFinite := isFinite
  infinity := posInf

end

/-! ## Real arguments -/

@[simp] theorem zero_eq : (0 : Extended) = real 0 := rfl

@[simp] theorem one_eq : (1 : Extended) = real 1 := rfl

@[simp] theorem natCast_eq (n : ℕ) : (n : Extended) = real n := rfl

@[simp] theorem ofScientific_eq (m : ℕ) (s : Bool) (e : ℕ) :
    (OfScientific.ofScientific m s e : Extended) = real (OfScientific.ofScientific m s e) := rfl

@[simp] theorem real_inj {x y : ℝ} : real x = real y ↔ x = y :=
  ⟨fun h ↦ by injection h, fun h ↦ h ▸ rfl⟩

@[simp] theorem real_add (x y : ℝ) : real x + real y = real (x + y) := rfl

@[simp] theorem real_sub (x y : ℝ) : real x - real y = real (x - y) := by
  rw [sub_eq_add_neg]
  rfl

@[simp] theorem real_neg (x : ℝ) : -real x = real (-x) := rfl

@[simp] theorem real_mul (x y : ℝ) : real x * real y = real (x * y) := rfl

theorem two_mul_real (x : ℝ) : (2.0 : Extended) * real x = real (2 * x) := by
  rw [ofScientific_eq, real_mul]
  norm_num

@[simp] theorem real_div {x y : ℝ} (hy : y ≠ 0) : real x / real y = real (x / y) := if_neg hy

@[simp] theorem posInf_sub_real (x : ℝ) : posInf - real x = posInf := rfl

theorem negInf_mul_real {x : ℝ} (hx : 0 < x) : negInf * real x = negInf := by
  change infinityTimes (-x) = negInf
  rw [infinityTimes, if_neg (not_lt.mpr (neg_nonpos.mpr hx.le)), if_pos (neg_neg_of_pos hx)]

theorem posInf_mul_real {x : ℝ} (hx : 0 < x) : posInf * real x = posInf := by
  change infinityTimes x = posInf
  rw [infinityTimes, if_pos hx]

@[simp] theorem real_lt {x y : ℝ} : real x < real y ↔ x < y := Iff.rfl

@[simp] theorem real_le {x y : ℝ} : real x ≤ real y ↔ x ≤ y := Iff.rfl

@[simp] theorem real_beq {x y : ℝ} : (real x == real y) = true ↔ x = y := decide_eq_true_iff

@[simp] theorem maxNum_real (x y : ℝ) : Scalar.maxNum (real x) (real y) = real (max x y) := rfl

@[simp] theorem minNum_real (x y : ℝ) : Scalar.minNum (real x) (real y) = real (min x y) := rfl

@[simp] theorem abs_real (x : ℝ) : Scalar.abs (real x) = real |x| := rfl

@[simp] theorem sqrt_real {x : ℝ} (hx : 0 ≤ x) : Scalar.sqrt (real x) = real (Real.sqrt x) :=
  if_neg hx.not_gt

@[simp] theorem ln_real {x : ℝ} (hx : 0 < x) : Scalar.ln (real x) = real (Real.log x) := if_pos hx

@[simp] theorem isFinite_real (x : ℝ) : Scalar.isFinite (real x) = true := rfl

/-! ## Real scalars -/

/-- The scalar is a real number. -/
def IsReal (a : Extended) : Prop := ∃ x : ℝ, a = real x

/-- The real number that a scalar is, zero if it is none. -/
def toReal : Extended → ℝ
  | real x => x
  | _ => 0

@[simp] theorem toReal_real (x : ℝ) : (real x).toReal = x := rfl

@[simp] theorem isReal_real (x : ℝ) : (real x).IsReal := ⟨x, rfl⟩

theorem real_ne_nan (x : ℝ) : real x ≠ nan := nofun

theorem posInf_ne_nan : posInf ≠ nan := nofun

theorem IsReal.eq {a : Extended} (ha : a.IsReal) : a = real a.toReal := by
  obtain ⟨x, rfl⟩ := ha
  rfl

theorem isFinite_iff {a : Extended} : Scalar.isFinite a = true ↔ a.IsReal := by
  cases a with
  | real x => exact ⟨fun _ ↦ ⟨x, rfl⟩, fun _ ↦ rfl⟩
  | _ => exact ⟨fun h ↦ (Bool.false_ne_true h).elim, fun h ↦ by obtain ⟨x, hx⟩ := h; cases hx⟩

theorem isReal_zero : (0 : Extended).IsReal := ⟨0, rfl⟩

theorem isReal_one : (1 : Extended).IsReal := ⟨1, rfl⟩

theorem isReal_ofScientific (m : ℕ) (s : Bool) (e : ℕ) :
    (OfScientific.ofScientific m s e : Extended).IsReal := ⟨_, rfl⟩

namespace IsReal

variable {a b : Extended}

theorem add (ha : a.IsReal) (hb : b.IsReal) : (a + b).IsReal := by
  obtain ⟨⟨x, rfl⟩, y, rfl⟩ := ha, hb
  exact ⟨x + y, rfl⟩

theorem neg (ha : a.IsReal) : (-a).IsReal := by
  obtain ⟨x, rfl⟩ := ha
  exact ⟨-x, rfl⟩

theorem sub (ha : a.IsReal) (hb : b.IsReal) : (a - b).IsReal := by
  obtain ⟨⟨x, rfl⟩, y, rfl⟩ := ha, hb
  exact ⟨x - y, real_sub x y⟩

theorem mul (ha : a.IsReal) (hb : b.IsReal) : (a * b).IsReal := by
  obtain ⟨⟨x, rfl⟩, y, rfl⟩ := ha, hb
  exact ⟨x * y, rfl⟩

theorem div (ha : a.IsReal) (hb : b.IsReal) (hb0 : b.toReal ≠ 0) : (a / b).IsReal := by
  obtain ⟨⟨x, rfl⟩, y, rfl⟩ := ha, hb
  exact ⟨x / y, real_div hb0⟩

theorem maxNum (ha : a.IsReal) (hb : b.IsReal) : (Scalar.maxNum a b).IsReal := by
  obtain ⟨⟨x, rfl⟩, y, rfl⟩ := ha, hb
  exact ⟨max x y, rfl⟩

theorem sqrt (ha : a.IsReal) (ha0 : 0 ≤ a.toReal) : (Scalar.sqrt a).IsReal := by
  obtain ⟨x, rfl⟩ := ha
  exact ⟨Real.sqrt x, sqrt_real ha0⟩

end IsReal

/-! ## Order -/

@[simp] theorem negInf_le_real (x : ℝ) : negInf ≤ real x := trivial

@[simp] theorem real_le_posInf (x : ℝ) : real x ≤ posInf := trivial

@[simp] theorem negInf_lt_real (x : ℝ) : negInf < real x := trivial

@[simp] theorem real_lt_posInf (x : ℝ) : real x < posInf := trivial

/-- A scalar that is at most a real number is a real number or negative infinity. -/
theorem le_real_iff {a : Extended} {x : ℝ} : a ≤ real x ↔ a = negInf ∨ ∃ y ≤ x, a = real y := by
  cases a with
  | real y =>
    refine ⟨fun h ↦ Or.inr ⟨y, h, rfl⟩, ?_⟩
    rintro (h | ⟨z, hz, h⟩)
    · cases h
    · injection h with h
      exact h ▸ hz
  | negInf => exact ⟨fun _ ↦ Or.inl rfl, fun _ ↦ trivial⟩
  | posInf | nan => exact ⟨False.elim, by rintro (h | ⟨z, -, h⟩) <;> cases h⟩

/-- A scalar that is at least a real number is a real number or positive infinity. -/
theorem real_le_iff {a : Extended} {x : ℝ} : real x ≤ a ↔ a = posInf ∨ ∃ y, x ≤ y ∧ a = real y := by
  cases a with
  | real y =>
    refine ⟨fun h ↦ Or.inr ⟨y, h, rfl⟩, ?_⟩
    rintro (h | ⟨z, hz, h⟩)
    · cases h
    · injection h with h
      exact h ▸ hz
  | posInf => exact ⟨fun _ ↦ Or.inl rfl, fun _ ↦ trivial⟩
  | negInf | nan => exact ⟨False.elim, by rintro (h | ⟨z, -, h⟩) <;> cases h⟩

/-- The scalar as an extended real number, zero if it is not a number. -/
noncomputable def toEReal : Extended → EReal
  | real x => x
  | posInf => ⊤
  | negInf => ⊥
  | nan => 0

/-- Numbers are compared as extended real numbers, and nothing else is comparable. -/
theorem le_iff {a b : Extended} : a ≤ b ↔ a ≠ nan ∧ b ≠ nan ∧ a.toEReal ≤ b.toEReal := by
  change Extended.le a b ↔ _
  cases a <;> cases b <;> simp [Extended.le, toEReal]

theorem toEReal_maxNum {a b : Extended} (ha : a ≠ nan) (hb : b ≠ nan) :
    (Scalar.maxNum a b).toEReal = max a.toEReal b.toEReal := by
  change (maxNum a b).toEReal = _
  cases a <;> cases b <;> simp_all [maxNum, toEReal, EReal.coe_strictMono.monotone.map_max]

theorem toEReal_minNum {a b : Extended} (ha : a ≠ nan) (hb : b ≠ nan) :
    (Scalar.minNum a b).toEReal = min a.toEReal b.toEReal := by
  change (minNum a b).toEReal = _
  cases a <;> cases b <;> simp_all [minNum, toEReal, EReal.coe_strictMono.monotone.map_min]

theorem maxNum_ne_nan {a b : Extended} (ha : a ≠ nan) : Scalar.maxNum a b ≠ nan := by
  change maxNum a b ≠ nan
  cases a <;> cases b <;> simp_all [maxNum]

theorem minNum_ne_nan {a b : Extended} (ha : a ≠ nan) : Scalar.minNum a b ≠ nan := by
  change minNum a b ≠ nan
  cases a <;> cases b <;> simp_all [minNum]

@[simp] theorem maxNum_nan_right (a : Extended) : Scalar.maxNum a nan = a := by
  cases a <;> rfl

@[simp] theorem minNum_nan_right (a : Extended) : Scalar.minNum a nan = a := by
  cases a <;> rfl

/-! ## Missing numbers -/

@[simp] theorem nan_add (a : Extended) : nan + a = nan := by cases a <;> rfl

@[simp] theorem add_nan (a : Extended) : a + nan = nan := by cases a <;> rfl

@[simp] theorem neg_nan : -nan = nan := rfl

@[simp] theorem nan_sub (a : Extended) : nan - a = nan := by cases a <;> rfl

@[simp] theorem nan_mul (a : Extended) : nan * a = nan := by cases a <;> rfl

@[simp] theorem mul_nan (a : Extended) : a * nan = nan := by cases a <;> rfl

@[simp] theorem nan_div (a : Extended) : nan / a = nan := by cases a <;> rfl

@[simp] theorem sqrt_nan : Scalar.sqrt nan = nan := rfl

@[simp] theorem not_lt_nan (a : Extended) : ¬a < nan := by cases a <;> exact id

/-! ## Comparing -/

theorem le_refl {a : Extended} (ha : a ≠ nan) : a ≤ a := by
  rw [le_iff]
  exact ⟨ha, ha, le_rfl⟩

theorem le_trans {a b c : Extended} (hab : a ≤ b) (hbc : b ≤ c) : a ≤ c := by
  rw [le_iff] at *
  exact ⟨hab.1, hbc.2.1, hab.2.2.trans hbc.2.2⟩

theorem isReal_of_le_of_le {a : Extended} {x y : ℝ} (hx : real x ≤ a) (hy : a ≤ real y) :
    a.IsReal := by
  rcases real_le_iff.mp hx with rfl | ⟨z, -, rfl⟩
  · rcases le_real_iff.mp hy with h | ⟨z, -, h⟩ <;> cases h
  · exact isReal_real z

theorem ne_nan_of_le {a b : Extended} (h : a ≤ b) : a ≠ nan ∧ b ≠ nan := by
  rw [le_iff] at h
  exact ⟨h.1, h.2.1⟩

theorem lt_iff {a b : Extended} : a < b ↔ a ≠ nan ∧ b ≠ nan ∧ a.toEReal < b.toEReal := by
  change Extended.lt a b ↔ _
  cases a <;> cases b <;> simp [Extended.lt, toEReal]

theorem le_of_lt {a b : Extended} (h : a < b) : a ≤ b := by
  rw [lt_iff] at h
  rw [le_iff]
  exact ⟨h.1, h.2.1, h.2.2.le⟩

theorem lt_of_not_le {a b : Extended} (ha : a ≠ nan) (hb : b ≠ nan) (h : ¬a ≤ b) : b < a := by
  rw [le_iff] at h
  rw [lt_iff]
  exact ⟨hb, ha, not_le.mp fun hle ↦ h ⟨ha, hb, hle⟩⟩

theorem lt_of_lt_of_le {a b c : Extended} (hab : a < b) (hbc : b ≤ c) : a < c := by
  rw [lt_iff] at *
  rw [le_iff] at hbc
  exact ⟨hab.1, hbc.2.1, hab.2.2.trans_le hbc.2.2⟩

theorem not_lt_of_le {a b : Extended} (h : a ≤ b) : ¬b < a := by
  rw [le_iff] at h
  rw [lt_iff]
  exact fun hlt ↦ (h.2.2.trans_lt hlt.2.2).false

theorem le_maxNum_of_le {a b c : Extended} (h : a ≤ b) : a ≤ Scalar.maxNum b c := by
  by_cases hc : c = nan
  · rwa [hc, maxNum_nan_right]
  · rw [le_iff] at h ⊢
    refine ⟨h.1, maxNum_ne_nan h.2.1, ?_⟩
    rw [toEReal_maxNum h.2.1 hc]
    exact h.2.2.trans (le_max_left _ _)

theorem not_lt_self (a : Extended) : ¬a < a := by
  rw [lt_iff]
  exact fun h ↦ lt_irrefl _ h.2.2

theorem not_maxNum_lt (a b : Extended) : ¬Scalar.maxNum a b < a := by
  intro h
  have hlt := h
  rw [lt_iff] at hlt
  exact not_lt_of_le (le_maxNum_of_le (le_refl hlt.2.1)) h

/-- What is at least the larger of two scalars is at least the first, if that is a number. -/
theorem le_of_maxNum_le {a b c : Extended} (ha : a ≠ nan) (h : Scalar.maxNum a b ≤ c) :
    a ≤ c := by
  by_cases hb : b = nan
  · rwa [hb, maxNum_nan_right] at h
  · rw [le_iff, toEReal_maxNum ha hb] at h
    rw [le_iff]
    exact ⟨ha, h.2.1, (le_max_left _ _).trans h.2.2⟩

/-- What is at most the smaller of two scalars is at most the first, if that is a number. -/
theorem le_of_le_minNum {a b c : Extended} (ha : a ≠ nan) (h : c ≤ Scalar.minNum a b) :
    c ≤ a := by
  by_cases hb : b = nan
  · rwa [hb, minNum_nan_right] at h
  · rw [le_iff, toEReal_minNum ha hb] at h
    rw [le_iff]
    exact ⟨h.1, ha, h.2.2.trans (min_le_left _ _)⟩

/-- The smaller of two scalars in order is the first. -/
theorem minNum_eq_left {a b : Extended} (h : a ≤ b) : Scalar.minNum a b = a := by
  change minNum a b = a
  change Extended.le a b at h
  cases a <;> cases b <;> simp_all [Extended.le, minNum]

/-- The larger of two scalars in order is the second. -/
theorem maxNum_eq_right {a b : Extended} (h : a ≤ b) : Scalar.maxNum a b = b := by
  change maxNum a b = b
  change Extended.le a b at h
  cases a <;> cases b <;> simp_all [Extended.le, maxNum]

theorem minNum_comm (a b : Extended) : Scalar.minNum a b = Scalar.minNum b a := by
  change minNum a b = minNum b a
  cases a <;> cases b <;> simp [minNum, min_comm]

theorem maxNum_comm (a b : Extended) : Scalar.maxNum a b = Scalar.maxNum b a := by
  change maxNum a b = maxNum b a
  cases a <;> cases b <;> simp [maxNum, max_comm]

theorem le_of_maxNum_le_right {a b c : Extended} (hb : b ≠ nan) (h : Scalar.maxNum a b ≤ c) :
    b ≤ c :=
  le_of_maxNum_le hb (maxNum_comm a b ▸ h)

theorem le_of_le_minNum_right {a b c : Extended} (hb : b ≠ nan) (h : c ≤ Scalar.minNum a b) :
    c ≤ b :=
  le_of_le_minNum hb (minNum_comm a b ▸ h)

theorem maxNum_le {a b c : Extended} (ha : a ≤ c) (hb : b ≤ c) : Scalar.maxNum a b ≤ c := by
  rw [le_iff] at ha hb
  rw [le_iff, toEReal_maxNum ha.1 hb.1]
  exact ⟨maxNum_ne_nan ha.1, ha.2.1, max_le ha.2.2 hb.2.2⟩

theorem le_minNum {a b c : Extended} (ha : c ≤ a) (hb : c ≤ b) : c ≤ Scalar.minNum a b := by
  rw [le_iff] at ha hb
  rw [le_iff, toEReal_minNum ha.2.1 hb.2.1]
  exact ⟨ha.1, minNum_ne_nan ha.2.1, le_min ha.2.2 hb.2.2⟩

theorem maxNum_le_iff {a b c : Extended} (ha : a ≠ nan) (hb : b ≠ nan) :
    Scalar.maxNum a b ≤ c ↔ a ≤ c ∧ b ≤ c :=
  ⟨fun h ↦ ⟨le_of_maxNum_le ha h, le_of_maxNum_le_right hb h⟩, fun h ↦ maxNum_le h.1 h.2⟩

theorem le_minNum_iff {a b c : Extended} (ha : a ≠ nan) (hb : b ≠ nan) :
    c ≤ Scalar.minNum a b ↔ c ≤ a ∧ c ≤ b :=
  ⟨fun h ↦ ⟨le_of_le_minNum ha h, le_of_le_minNum_right hb h⟩, fun h ↦ le_minNum h.1 h.2⟩

/-! ## Lines in a slab

The line `x + v t` meets a bound `b` where `t` is `(b - x) / v`. -/

section Line

variable {b : Extended} {x v t : ℝ}

theorem slope_ne_nan (hb : b ≠ nan) (hv : v ≠ 0) : (b - real x) / real v ≠ nan := by
  cases b with
  | real b =>
    rw [real_sub, real_div hv]
    exact nofun
  | negInf =>
    change (if v < 0 then posInf else negInf) ≠ nan
    split <;> exact nofun
  | posInf =>
    change (if v < 0 then negInf else posInf) ≠ nan
    split <;> exact nofun
  | nan => contradiction

theorem le_line_iff_of_pos (hv : 0 < v) :
    (b - real x) / real v ≤ real t ↔ b ≤ real (x + v * t) := by
  cases b with
  | real b =>
    rw [real_sub, real_div hv.ne', real_le, real_le, div_le_iff₀ hv, sub_le_iff_le_add', mul_comm t]
  | negInf => rw [show (negInf - real x) / real v = negInf from if_neg hv.not_gt]; rfl
  | posInf => rw [show (posInf - real x) / real v = posInf from if_neg hv.not_gt]; rfl
  | nan => rfl

theorem line_le_iff_of_pos (hv : 0 < v) :
    real t ≤ (b - real x) / real v ↔ real (x + v * t) ≤ b := by
  cases b with
  | real b =>
    rw [real_sub, real_div hv.ne', real_le, real_le, le_div_iff₀ hv, le_sub_iff_add_le', mul_comm t]
  | negInf => rw [show (negInf - real x) / real v = negInf from if_neg hv.not_gt]; rfl
  | posInf => rw [show (posInf - real x) / real v = posInf from if_neg hv.not_gt]; rfl
  | nan => rfl

theorem line_le_iff_of_neg (hv : v < 0) :
    (b - real x) / real v ≤ real t ↔ real (x + v * t) ≤ b := by
  cases b with
  | real b =>
    rw [real_sub, real_div hv.ne, real_le, real_le, div_le_iff_of_neg hv, le_sub_iff_add_le',
      mul_comm t]
  | negInf => rw [show (negInf - real x) / real v = posInf from if_pos hv]; rfl
  | posInf => rw [show (posInf - real x) / real v = negInf from if_pos hv]; rfl
  | nan => rfl

theorem le_line_iff_of_neg (hv : v < 0) :
    real t ≤ (b - real x) / real v ↔ b ≤ real (x + v * t) := by
  cases b with
  | real b =>
    rw [real_sub, real_div hv.ne, real_le, real_le, le_div_iff_of_neg hv, sub_le_iff_le_add',
      mul_comm t]
  | negInf => rw [show (negInf - real x) / real v = posInf from if_pos hv]; rfl
  | posInf => rw [show (posInf - real x) / real v = negInf from if_pos hv]; rfl
  | nan => rfl

end Line

/-- A line is in a slab that is not empty exactly between the points where it meets the bounds. -/
theorem line_mem_slab_iff {l u : Extended} {x v t r : ℝ} (hl : l ≤ real r) (hu : real r ≤ u)
    (hv : v ≠ 0) :
    (Scalar.minNum ((l - real x) / real v) ((u - real x) / real v) ≤ real t
      ∧ real t ≤ Scalar.maxNum ((l - real x) / real v) ((u - real x) / real v))
      ↔ l ≤ real (x + v * t) ∧ real (x + v * t) ≤ u := by
  have hr : x + v * ((r - x) / v) = r := by rw [mul_div_cancel₀ _ hv, add_sub_cancel]
  rw [← hr] at hl hu
  rcases lt_or_gt_of_ne hv with hneg | hpos
  · have horder := le_trans ((line_le_iff_of_neg hneg).mpr hu) ((le_line_iff_of_neg hneg).mpr hl)
    rw [minNum_comm, minNum_eq_left horder, maxNum_comm, maxNum_eq_right horder,
      line_le_iff_of_neg hneg, le_line_iff_of_neg hneg, and_comm]
  · have horder := le_trans ((le_line_iff_of_pos hpos).mpr hl) ((line_le_iff_of_pos hpos).mpr hu)
    rw [minNum_eq_left horder, maxNum_eq_right horder, le_line_iff_of_pos hpos,
      line_le_iff_of_pos hpos]

end Extended

end LogBarrier

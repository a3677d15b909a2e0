import Mathlib.Data.Rat.Defs
import Mathlib.Data.Rat.Floor
import Mathlib.Tactic.Common

namespace Maybenot.Lib

/-- The value of a float: exact, without a negative zero. -/
inductive Val where
  | nan
  | inf (neg : Bool)
  | fin (q : Rat)
deriving DecidableEq

namespace Val

/-- The IEEE `<`: false as soon as one side is NaN. -/
def lt : Val → Val → Bool
  | nan, _ | _, nan => false
  | inf a, inf b => a && !b
  | inf a, fin _ => a
  | fin _, inf b => !b
  | fin p, fin q => decide (p < q)

/-- The IEEE `<=`: false as soon as one side is NaN. -/
def le : Val → Val → Bool
  | nan, _ | _, nan => false
  | inf a, inf b => a || !b
  | inf a, fin _ => a
  | fin _, inf b => !b
  | fin p, fin q => decide (p ≤ q)

def add : Val → Val → Val
  | nan, _ | _, nan => nan
  | inf a, inf b => if a = b then inf a else nan
  | inf a, fin _ => inf a
  | fin _, inf b => inf b
  | fin p, fin q => fin (p + q)

def neg : Val → Val
  | nan => nan
  | inf a => inf !a
  | fin q => fin (-q)

def mul : Val → Val → Val
  | nan, _ | _, nan => nan
  | inf a, inf b => inf (a != b)
  | inf a, fin q | fin q, inf a => if q = 0 then nan else inf (a != decide (q < 0))
  | fin p, fin q => fin (p * q)

/-- Division of two numbers that are not negative. -/
def div : Rat → Rat → Val
  | p, q => if q = 0 then (if p = 0 then nan else inf false) else fin (p / q)

@[simp] theorem lt_nan (x : Val) : lt x nan = false := by cases x <;> rfl
@[simp] theorem nan_lt (x : Val) : lt nan x = false := by cases x <;> rfl
@[simp] theorem le_nan (x : Val) : le x nan = false := by cases x <;> rfl
@[simp] theorem nan_le (x : Val) : le nan x = false := by cases x <;> rfl
@[simp] theorem add_nan (x : Val) : add x nan = nan := by cases x <;> rfl
@[simp] theorem nan_add (x : Val) : add nan x = nan := by cases x <;> rfl

/-- Adding a number never makes a NaN. -/
theorem add_fin_nan {x : Val} {q : Rat} : add x (fin q) = nan ↔ x = nan := by
  cases x <;> simp [add]

/-- `as u64` after rounding down: NaN and what is below zero give 0, what is
too large gives the largest `u64`. -/
def toU64 : Val → Nat
  | nan => 0
  | inf neg => if neg then 0 else 2 ^ 64 - 1
  | fin q => min q.floor.toNat (2 ^ 64 - 1)

/-- `round() as u64`: halves go away from zero. -/
def roundToU64 : Val → Nat
  | fin q => toU64 (fin (q + 1 / 2))
  | x => toU64 x

theorem le_self {x : Val} (h : x ≠ nan) : x.le x = true := by
  cases x with
  | nan => exact absurd rfl h
  | inf neg => cases neg <;> rfl
  | fin q => exact decide_eq_true le_rfl

theorem le_of_not_lt {x y : Val} (hx : x ≠ nan) (hy : y ≠ nan) (h : y.lt x = false) :
    x.le y = true := by
  cases x with
  | nan => exact absurd rfl hx
  | inf a =>
    cases y with
    | nan => exact absurd rfl hy
    | inf b => revert h; cases a <;> cases b <;> decide
    | fin q => cases a <;> simp_all [lt, le]
  | fin p =>
    cases y with
    | nan => exact absurd rfl hy
    | inf b => cases b <;> simp_all [lt, le]
    | fin q => exact decide_eq_true (not_lt.mp (of_decide_eq_false h))

/-- Rounding does not go beyond a whole number. -/
theorem roundToU64_le {x : Val} {n : Nat} (h : x.le (fin n) = true) : x.roundToU64 ≤ n := by
  cases x with
  | nan => exact absurd h Bool.false_ne_true
  | inf neg =>
    cases neg with
    | false => exact absurd h Bool.false_ne_true
    | true => exact Nat.zero_le n
  | fin q =>
    have hq : q ≤ n := of_decide_eq_true h
    have hfloor : (q + 1 / 2).floor < (n : Int) + 1 := by
      rw [Rat.floor_lt_iff]
      push_cast
      linarith
    apply (Nat.min_le_left _ _).trans
    omega

end Val

/-- A binary interchange format with `e` exponent bits and `m` fraction bits. -/
structure Flt (e m : Nat) where
  bits : BitVec (1 + e + m)
deriving DecidableEq

abbrev F32 := Flt 8 23
abbrev F64 := Flt 11 52

namespace Flt

variable {e m : Nat}

/-- The exponent of the last place of a subnormal number. -/
def minExp (e m : Nat) : Int := 2 - 2 ^ (e - 1) - m

def scale (n : Nat) (k : Int) : Rat := mkRat (n * 2 ^ k.toNat) (2 ^ (-k).toNat)

def val (x : Flt e m) : Val :=
  let frac := x.bits.toNat % 2 ^ m
  let expo := x.bits.toNat / 2 ^ m % 2 ^ e
  let neg := x.bits.toNat / 2 ^ (m + e) == 1
  if expo = 2 ^ e - 1 then
    if frac = 0 then .inf neg else .nan
  else
    let mag := if expo = 0 then scale frac (minExp e m)
      else scale (2 ^ m + frac) (minExp e m + (expo - 1))
    .fin (if neg then -mag else mag)

/-- The nearest natural number to `n / d`, ties to even. -/
def nearestEven (n d : Nat) : Nat :=
  let q := n / d
  let r := n % d
  if 2 * r < d then q else if d < 2 * r then q + 1 else q + q % 2

/-- The magnitude bits of the float nearest to a positive rational: the exponent
field and the fraction are one number, so a carry out of the fraction is right. -/
def magnitude (e m : Nat) (q : Rat) : Nat :=
  let n := q.num.natAbs
  let guess : Int := n.log2 - q.den.log2
  let expo := if q < scale 1 guess then guess - 1 else guess
  let last := max (expo - m) (minExp e m)
  let digits := nearestEven (n * 2 ^ (-last).toNat) (q.den * 2 ^ last.toNat)
  min ((last - minExp e m).toNat * 2 ^ m + digits) ((2 ^ e - 1) * 2 ^ m)

def ofParts (neg : Bool) (mag : Nat) : Flt e m :=
  ⟨BitVec.ofNat _ ((if neg then 2 ^ (m + e) else 0) + mag)⟩

/-- Round an exact value to the format, to nearest with ties to even. -/
def round : Val → Flt e m
  | .nan => ofParts false ((2 ^ e - 1) * 2 ^ m + 2 ^ (m - 1))
  | .inf neg => ofParts neg ((2 ^ e - 1) * 2 ^ m)
  | .fin q => if q = 0 then ofParts false 0 else ofParts (q < 0) (magnitude e m |q|)

def ofRat (q : Rat) : Flt e m := round (.fin q)

def add (x y : Flt e m) : Flt e m := round (x.val.add y.val)

def sub (x y : Flt e m) : Flt e m := round (x.val.add y.val.neg)

def mul (x y : Flt e m) : Flt e m := round (x.val.mul y.val)

def isInfinite (x : Flt e m) : Bool := x.val = .inf false ∨ x.val = .inf true

/-- `max`, which prefers the side that is not NaN. -/
def max (x y : Flt e m) : Flt e m :=
  if x.val = .nan then y else if y.val = .nan then x else if x.val.lt y.val then y else x

/-- `min`, which prefers the side that is not NaN. -/
def min (x y : Flt e m) : Flt e m :=
  if x.val = .nan then y else if y.val = .nan then x else if y.val.lt x.val then y else x

/-- The smaller of two is at most the second, unless that is NaN. -/
theorem min_le {x y : Flt e m} (hy : y.val ≠ .nan) : (x.min y).val.le y.val = true := by
  unfold min
  split
  · exact Val.le_self hy
  · next hx =>
    split
    · exact Val.le_self hy
    · next hlt => exact Val.le_of_not_lt hx hy (Bool.eq_false_of_not_eq_true hlt)

theorem ofParts_toNat {neg : Bool} {mag : Nat} (h : mag < 2 ^ (m + e)) :
    (ofParts neg mag : Flt e m).bits.toNat = (if neg then 2 ^ (m + e) else 0) + mag := by
  have hpow : 2 ^ (1 + e + m) = 2 * 2 ^ (m + e) := by
    rw [show 1 + e + m = (m + e) + 1 by omega, Nat.pow_succ, Nat.mul_comm]
  unfold ofParts
  rw [BitVec.toNat_ofNat, Nat.mod_eq_of_lt]
  cases neg <;> simp <;> omega

/-- The sign bit is no part of the fraction. -/
theorem ofParts_frac {neg : Bool} {mag : Nat} (h : mag < 2 ^ (m + e)) :
    (ofParts neg mag : Flt e m).bits.toNat % 2 ^ m = mag % 2 ^ m := by
  rw [ofParts_toNat h]
  cases neg with
  | false => simp
  | true => simp [Nat.pow_add]

/-- Nor of the exponent. -/
theorem ofParts_expo {neg : Bool} {mag : Nat} (h : mag < 2 ^ (m + e)) :
    (ofParts neg mag : Flt e m).bits.toNat / 2 ^ m % 2 ^ e = mag / 2 ^ m := by
  have hlt : mag / 2 ^ m < 2 ^ e := Nat.div_lt_of_lt_mul (Nat.pow_add 2 m e ▸ h)
  rw [ofParts_toNat h]
  cases neg with
  | false => simp [Nat.mod_eq_of_lt hlt]
  | true =>
    rw [if_pos rfl, Nat.pow_add, Nat.mul_add_div (Nat.two_pow_pos m), Nat.add_mod_left,
      Nat.mod_eq_of_lt hlt]

/-- NaN is what lies above the infinity. -/
theorem ofParts_nan {neg : Bool} {mag : Nat} (h : mag < 2 ^ (m + e)) :
    (ofParts neg mag : Flt e m).val = .nan ↔ (2 ^ e - 1) * 2 ^ m < mag := by
  have hfrac := Nat.div_add_mod mag (2 ^ m)
  have hexpo : mag / 2 ^ m < 2 ^ e := Nat.div_lt_of_lt_mul (Nat.pow_add 2 m e ▸ h)
  unfold val
  simp only [ofParts_frac h, ofParts_expo h]
  by_cases hall : mag / 2 ^ m = 2 ^ e - 1
  · rw [Nat.mul_comm, hall] at hfrac
    by_cases hzero : mag % 2 ^ m = 0
    · simp [hall, hzero]
      omega
    · simp [hall, hzero]
      omega
  · have hbelow : (mag / 2 ^ m + 1) * 2 ^ m ≤ (2 ^ e - 1) * 2 ^ m :=
      Nat.mul_le_mul_right _ (by omega)
    have hrest := Nat.mod_lt mag (Nat.two_pow_pos m)
    rw [Nat.add_mul, Nat.one_mul, Nat.mul_comm] at hbelow
    simp [hall]
    omega

theorem infinite_lt : (2 ^ e - 1) * 2 ^ m < 2 ^ (m + e) := by
  rw [Nat.pow_add, Nat.mul_comm]
  exact Nat.mul_lt_mul_of_pos_left (Nat.sub_lt (Nat.two_pow_pos e) Nat.one_pos)
    (Nat.two_pow_pos m)

theorem magnitude_le (q : Rat) : magnitude e m q ≤ (2 ^ e - 1) * 2 ^ m := Nat.min_le_right _ _

/-- Rounding makes no NaN and loses none. -/
theorem round_nan {x : Val} (hm : 0 < m) : (round x : Flt e m).val = .nan ↔ x = .nan := by
  cases x with
  | nan =>
    have hquiet : 2 ^ (m - 1) < 2 ^ m := Nat.pow_lt_pow_right (by decide) (by omega)
    have hpow : 2 ^ (m + e) = (2 ^ e - 1) * 2 ^ m + 2 ^ m := by
      rw [← Nat.succ_mul, Nat.succ_eq_add_one, Nat.sub_add_cancel (Nat.two_pow_pos e), Nat.add_comm,
        Nat.pow_add]
    simp only [round, iff_true]
    apply (ofParts_nan (by omega)).mpr
    have hpos := Nat.two_pow_pos (m - 1)
    omega
  | inf neg =>
    simp only [round, reduceCtorEq, iff_false]
    exact fun h => absurd ((ofParts_nan infinite_lt).mp h) (Nat.lt_irrefl _)
  | fin q =>
    simp only [round, reduceCtorEq, iff_false]
    intro h
    split at h
    · exact absurd ((ofParts_nan (Nat.two_pow_pos _)).mp h) (Nat.not_lt_zero _)
    · have hle : magnitude e m |q| ≤ _ := magnitude_le _
      have habove := (ofParts_nan (Nat.lt_of_le_of_lt hle infinite_lt)).mp h
      omega

theorem add_nan {x y : Flt e m} (hm : 0 < m) :
    (x.add y).val = .nan ↔ x.val.add y.val = .nan := round_nan hm

end Flt

end Maybenot.Lib

import Maybenot.Lib.Ieee
import Mathlib.Tactic.Linarith
import Mathlib.Tactic.Positivity
import Mathlib.Tactic.Ring
import Mathlib.Data.Rat.Cast.Order
import Mathlib.Algebra.Order.Field.Power
import Mathlib.Order.Monotone.Basic

namespace Maybenot.Lib

namespace Val

theorem le_trans {x y z : Val} (hxy : x.le y = true) (hyz : y.le z = true) : x.le z = true := by
  cases x with
  | nan => exact absurd hxy (by simp)
  | inf a =>
    cases y with
    | nan => exact absurd hxy (by simp)
    | inf b => cases z <;> cases a <;> cases b <;> simp_all [le]
    | fin q => cases z <;> cases a <;> simp_all [le]
  | fin p =>
    cases y with
    | nan => exact absurd hxy (by simp)
    | inf b => cases z <;> cases b <;> simp_all [le]
    | fin q =>
      cases z with
      | nan => exact absurd hyz (by simp)
      | inf c => exact hyz
      | fin r =>
        exact decide_eq_true ((of_decide_eq_true hxy).trans (of_decide_eq_true hyz))

theorem le_of_lt {x y : Val} (h : x.lt y = true) : x.le y = true := by
  cases x <;> cases y <;> simp_all [lt, le]
  exact h.le

theorem lt_of_lt_of_le {x y z : Val} (hxy : x.lt y = true) (hyz : y.le z = true) :
    x.lt z = true := by
  cases x with
  | nan => exact absurd hxy (by simp)
  | inf a =>
    cases y with
    | nan => exact absurd hxy (by simp)
    | inf b => cases z <;> cases a <;> cases b <;> simp_all [lt, le]
    | fin q => cases z <;> cases a <;> simp_all [lt, le]
  | fin p =>
    cases y with
    | nan => exact absurd hxy (by simp)
    | inf b => cases z <;> cases b <;> simp_all [lt, le]
    | fin q =>
      cases z with
      | nan => exact absurd hyz (by simp)
      | inf c => exact hyz
      | fin r =>
        exact decide_eq_true ((of_decide_eq_true hxy).trans_le (of_decide_eq_true hyz))

theorem le_inf {x : Val} (h : x ≠ nan) : x.le (inf false) = true := by
  cases x with
  | nan => exact absurd rfl h
  | inf a => cases a <;> rfl
  | fin q => rfl

theorem inf_le {x : Val} (h : x ≠ nan) : (inf true).le x = true := by
  cases x with
  | nan => exact absurd rfl h
  | inf a => cases a <;> rfl
  | fin q => rfl

theorem le_not_nan {x y : Val} (h : x.le y = true) : x ≠ nan ∧ y ≠ nan := by
  constructor
  all_goals
    rintro rfl
    simp at h

theorem toU64_lt (x : Val) : x.toU64 < 2 ^ 64 := by
  cases x with
  | nan => exact Nat.two_pow_pos 64
  | inf neg => cases neg <;> decide
  | fin q => exact (Nat.min_le_right _ _).trans_lt (by decide)

/-- Cut down to a whole number of 64 bits, a number loses less than one, unless it is negative or
does not fit. -/
theorem toU64_bounds (q : Rat) :
    ((toU64 (fin q) : Rat) ≤ q ∨ toU64 (fin q) = 0) ∧
      (q < toU64 (fin q) + 1 ∨ toU64 (fin q) + 1 = 2 ^ 64) := by
  have hle : (q.floor : Rat) ≤ q := Rat.floor_le q
  have hlt : q < (q.floor : Rat) + 1 := by exact_mod_cast Rat.lt_floor_add_one q
  have hcut : ((q.floor.toNat : Int) : Rat) = (q.floor.toNat : Rat) := Int.cast_natCast _
  simp only [toU64]
  rcases Int.lt_or_le q.floor 0 with hneg | hpos
  · have hzero : q.floor.toNat = 0 := Int.toNat_of_nonpos hneg.le
    have hfloor : (q.floor : Rat) + 1 ≤ 0 := by exact_mod_cast hneg
    rw [hzero, Nat.zero_min]
    refine ⟨.inr rfl, .inl ?_⟩
    push_cast
    linarith
  · have htoNat : (q.floor.toNat : Rat) = q.floor := by
      rw [← hcut, Int.toNat_of_nonneg hpos]
    rcases Nat.le_total q.floor.toNat (2 ^ 64 - 1) with hfits | hlarge
    · rw [Nat.min_eq_left hfits, htoNat]
      exact ⟨.inl hle, .inl hlt⟩
    · rw [Nat.min_eq_right hlarge]
      refine ⟨.inl ?_, .inr rfl⟩
      have hlarge' : ((2 ^ 64 - 1 : Nat) : Rat) ≤ q.floor.toNat := by exact_mod_cast hlarge
      linarith

/-- What lies between two bounds is cut down to a whole number between them. -/
theorem toU64_between {low x high : Val} (hlow : low.le x = true) (hhigh : x.le high = true)
    (hpos : (fin 0).le high = true) (hsmall : low.lt (fin (2 ^ 64)) = true) :
    low.lt (fin (x.toU64 + 1)) = true ∧ (fin x.toU64).le high = true := by
  have hnan := le_not_nan hlow
  cases x with
  | nan => exact absurd rfl hnan.2
  | inf neg =>
    cases neg with
    | true =>
      -- what is below zero is cut off at zero
      refine ⟨?_, hpos⟩
      cases low <;> simp_all [le, lt]
    | false =>
      have hfull : ((toU64 (inf false) : Rat) + 1) = 2 ^ 64 := by norm_num [toU64]
      rw [hfull]
      refine ⟨hsmall, ?_⟩
      cases high <;> simp_all [le]
  | fin q =>
    obtain ⟨hdown, hup⟩ := toU64_bounds q
    generalize toU64 (fin q) = n at *
    constructor
    · cases low with
      | nan => exact absurd rfl hnan.1
      | inf neg => exact hlow
      | fin p =>
        have hpq : p ≤ q := of_decide_eq_true hlow
        have hp : p < 2 ^ 64 := of_decide_eq_true hsmall
        apply decide_eq_true
        rcases hup with hq | hn
        · exact hpq.trans_lt hq
        · have hn' : (n : Rat) + 1 = 2 ^ 64 := by exact_mod_cast hn
          rwa [hn']
    · rcases hdown with hq | hn
      · have hcut : (fin n).le (fin q) = true := decide_eq_true hq
        exact le_trans hcut hhigh
      · rw [hn]
        exact hpos

/-- Changing the signs turns the order around. -/
theorem neg_le_neg (x y : Val) : x.neg.le y.neg = y.le x := by
  cases x <;> cases y <;> simp [neg, le, Bool.or_comm]

end Val

namespace Flt

variable {e m : Nat}

theorem two_zpow (k : Int) : (2 : Rat) ^ k * 2 ^ (-k).toNat = 2 ^ k.toNat := by
  obtain ⟨n, rfl | rfl⟩ := k.eq_nat_or_neg
  · simp
  · simp

theorem scale_eq (n : Nat) (k : Int) : scale n k = n * 2 ^ k := by
  have hpos : (0 : Rat) < 2 ^ (-k).toNat := by positivity
  rw [scale, Rat.mkRat_eq_div, div_eq_iff (by exact_mod_cast hpos.ne')]
  push_cast
  rw [mul_assoc, two_zpow]

/-- What rounding to a whole number keeps: the distance is at most a half, and a half only if the
number is even. -/
theorem nearestEven_spec (n : Nat) {d : Nat} (hd : 0 < d) :
    2 * n ≤ (2 * nearestEven n d + 1) * d ∧ 2 * nearestEven n d * d ≤ 2 * n + d ∧
      (2 * n = (2 * nearestEven n d + 1) * d → nearestEven n d % 2 = 0) ∧
      (2 * nearestEven n d * d = 2 * n + d → nearestEven n d % 2 = 0) := by
  have hdiv : n / d * d + n % d = n := Nat.div_add_mod' n d
  have hmod := Nat.mod_lt n hd
  unfold nearestEven
  simp only
  generalize n / d = q at hdiv ⊢
  generalize n % d = r at hdiv hmod ⊢
  have hone : (q + 1) * d = q * d + d := Nat.succ_mul q d
  split
  · simp only [Nat.add_mul, Nat.mul_assoc]
    omega
  · split
    · simp only [Nat.add_mul, Nat.mul_assoc]
      omega
    · rcases Nat.mod_two_eq_zero_or_one q with heven | hodd
      · simp only [heven, Nat.add_zero, Nat.add_mul, Nat.mul_assoc, implies_true, and_true]
        omega
      · simp only [hodd, Nat.add_mul, Nat.mul_assoc]
        omega

/-- Of two quotients the larger one is not rounded to less. -/
theorem nearestEven_mono {n d n' d' : Nat} (hd : 0 < d) (hd' : 0 < d') (h : n * d' ≤ n' * d) :
    nearestEven n d ≤ nearestEven n' d' := by
  obtain ⟨-, hup, -, htie⟩ := nearestEven_spec n hd
  obtain ⟨hdown', -, htie', -⟩ := nearestEven_spec n' hd'
  generalize nearestEven n d = k at *
  generalize nearestEven n' d' = k' at *
  by_contra hlt
  -- the two would be half way between two neighbours, both rounded to the even one
  have hk : k' + 1 ≤ k := Nat.lt_of_not_le hlt
  have hup2 := Nat.mul_le_mul_right d' hup
  have hdown2 := Nat.mul_le_mul_right d hdown'
  have hstep := Nat.mul_le_mul_right (d * d') hk
  have hpos := Nat.mul_pos hd hd'
  have hknext : k = k' + 1 := by
    by_contra hne
    have hfar := Nat.mul_le_mul_right (d * d') (show k' + 2 ≤ k by omega)
    linarith
  subst hknext
  have h1 : 2 * (k' + 1) * d = 2 * n + d := by
    apply Nat.eq_of_mul_eq_mul_right hd'
    linarith
  have h2 : 2 * n' = (2 * k' + 1) * d' := by
    apply Nat.eq_of_mul_eq_mul_right hd
    linarith
  have := htie h1
  have := htie' h2
  omega

@[simp] theorem nearestEven_one (k : Nat) : nearestEven k 1 = k := by
  simp [nearestEven, Nat.mod_one]

/-- The exponent of the highest digit of a positive rational. -/
def exponent (q : Rat) : Int :=
  let guess : Int := q.num.natAbs.log2 - q.den.log2
  if q < scale 1 guess then guess - 1 else guess

theorem natAbs_num {q : Rat} (hq : 0 ≤ q) : (q.num.natAbs : Rat) = q * q.den := by
  rw [Rat.mul_den_eq_num]
  exact congrArg (Int.cast (R := Rat)) (Int.natAbs_of_nonneg (Rat.num_nonneg.mpr hq))

theorem exponent_spec {q : Rat} (hq : 0 < q) :
    (2 : Rat) ^ exponent q ≤ q ∧ q < 2 ^ (exponent q + 1) := by
  have hn : q.num.natAbs ≠ 0 := by
    have := Rat.num_pos.mpr hq
    omega
  have hden : (0 : Rat) < q.den := by exact_mod_cast q.den_pos
  have hnum := natAbs_num hq.le
  have hlow : ((2 : Rat) ^ q.num.natAbs.log2) ≤ q * q.den := by
    rw [← hnum]
    exact_mod_cast Nat.log2_self_le hn
  have hhigh : q * q.den < (2 : Rat) ^ (q.num.natAbs.log2 + 1) := by
    rw [← hnum]
    exact_mod_cast Nat.lt_log2_self
  have hdlow : ((2 : Rat) ^ q.den.log2) ≤ q.den := by
    exact_mod_cast Nat.log2_self_le q.den_pos.ne'
  have hdhigh : (q.den : Rat) < (2 : Rat) ^ (q.den.log2 + 1) := by
    exact_mod_cast Nat.lt_log2_self
  have htwo : (2 : Rat) ≠ 0 := by norm_num
  have habove : q < 2 ^ ((q.num.natAbs.log2 : Int) - q.den.log2 + 1) := by
    rw [show (q.num.natAbs.log2 : Int) - q.den.log2 + 1 =
      ((q.num.natAbs.log2 + 1 : Nat) : Int) - (q.den.log2 : Nat) by push_cast; ring,
      zpow_sub₀ htwo, zpow_natCast, zpow_natCast, lt_div_iff₀ (by positivity)]
    exact (mul_le_mul_of_nonneg_left hdlow hq.le).trans_lt hhigh
  have hbelow : (2 : Rat) ^ ((q.num.natAbs.log2 : Int) - q.den.log2 - 1) ≤ q := by
    rw [show (q.num.natAbs.log2 : Int) - q.den.log2 - 1 =
      ((q.num.natAbs.log2 : Nat) : Int) - (q.den.log2 + 1 : Nat) by push_cast; ring,
      zpow_sub₀ htwo, zpow_natCast, zpow_natCast, div_le_iff₀ (by positivity)]
    exact hlow.trans (mul_le_mul_of_nonneg_left hdhigh.le hq.le)
  unfold exponent
  simp only [scale_eq, Nat.cast_one, one_mul]
  split
  · next hlt => exact ⟨hbelow, by rw [sub_add_cancel]; exact hlt⟩
  · next hge => exact ⟨not_lt.mp hge, habove⟩

theorem exponent_mono {p q : Rat} (hp : 0 < p) (hpq : p ≤ q) : exponent p ≤ exponent q := by
  have hlow := (exponent_spec hp).1
  have hhigh := (exponent_spec (hp.trans_le hpq)).2
  have hlt : (2 : Rat) ^ exponent p < 2 ^ (exponent q + 1) := (hlow.trans hpq).trans_lt hhigh
  have := (zpow_lt_zpow_iff_right₀ (by norm_num : (1 : Rat) < 2)).mp hlt
  omega

/-- The digits of a positive rational down to a place. -/
def digitsAt (q : Rat) (last : Int) : Nat :=
  nearestEven (q.num.natAbs * 2 ^ (-last).toNat) (q.den * 2 ^ last.toNat)

theorem digitsAt_mono {p q : Rat} (hp : 0 ≤ p) (hpq : p ≤ q) (last : Int) :
    digitsAt p last ≤ digitsAt q last := by
  have hcross : p.num.natAbs * q.den ≤ q.num.natAbs * p.den := by
    have h := (Rat.le_iff p q).mp hpq
    have hp' := Rat.num_nonneg.mpr hp
    have hq' := Rat.num_nonneg.mpr (hp.trans hpq)
    zify
    rwa [abs_of_nonneg hp', abs_of_nonneg hq']
  apply nearestEven_mono
  · exact Nat.mul_pos p.den_pos (Nat.two_pow_pos _)
  · exact Nat.mul_pos q.den_pos (Nat.two_pow_pos _)
  · calc p.num.natAbs * 2 ^ (-last).toNat * (q.den * 2 ^ last.toNat)
        = p.num.natAbs * q.den * (2 ^ (-last).toNat * 2 ^ last.toNat) := by ring
      _ ≤ q.num.natAbs * p.den * (2 ^ (-last).toNat * 2 ^ last.toNat) :=
        Nat.mul_le_mul_right _ hcross
      _ = q.num.natAbs * 2 ^ (-last).toNat * (p.den * 2 ^ last.toNat) := by ring

/-- The digits against a number of last places. -/
theorem digitsAt_bounds {q : Rat} (hq : 0 ≤ q) (k : Nat) (last : Int) :
    ((k : Rat) * 2 ^ last ≤ q → k ≤ digitsAt q last) ∧
      (q ≤ k * 2 ^ last → digitsAt q last ≤ k) := by
  have hden := Nat.mul_pos q.den_pos (Nat.two_pow_pos last.toNat)
  have hpow : (0 : Rat) < 2 ^ (-last).toNat := by positivity
  have hnum : ((q.num.natAbs * 2 ^ (-last).toNat : Nat) : Rat) =
      q * (q.den * 2 ^ (-last).toNat) := by
    push_cast
    rw [natAbs_num hq, mul_assoc]
  have hplace : ((q.den * 2 ^ last.toNat : Nat) : Rat) =
      2 ^ last * (q.den * 2 ^ (-last).toNat) := by
    push_cast
    rw [← two_zpow last]
    ring
  have hscale : (0 : Rat) ≤ q.den * 2 ^ (-last).toNat := by positivity
  constructor
  · intro h
    rw [← nearestEven_one k]
    apply nearestEven_mono Nat.one_pos hden
    have hle := mul_le_mul_of_nonneg_right h hscale
    rw [mul_assoc, ← hplace, ← hnum] at hle
    rw [Nat.mul_one]
    exact_mod_cast hle
  · intro h
    rw [← nearestEven_one k]
    apply nearestEven_mono hden Nat.one_pos
    have hle := mul_le_mul_of_nonneg_right h hscale
    rw [mul_assoc, ← hplace, ← hnum] at hle
    rw [Nat.mul_one]
    exact_mod_cast hle

/-- The last place that a float near a positive rational has. -/
def lastPlace (e m : Nat) (q : Rat) : Int := Max.max (exponent q - m) (minExp e m)

theorem magnitude_eq (q : Rat) : magnitude e m q =
    Min.min ((lastPlace e m q - minExp e m).toNat * 2 ^ m + digitsAt q (lastPlace e m q))
      ((2 ^ e - 1) * 2 ^ m) := rfl

/-- A larger number has no smaller magnitude. -/
theorem magnitude_mono {p q : Rat} (hp : 0 < p) (hpq : p ≤ q) :
    magnitude e m p ≤ magnitude e m q := by
  have hq := hp.trans_le hpq
  have hexp := exponent_mono hp hpq
  rw [magnitude_eq, magnitude_eq]
  apply min_le_min_right
  have hlast : lastPlace e m p ≤ lastPlace e m q := max_le_max_right _ (by omega)
  have hmin : minExp e m ≤ lastPlace e m p := le_max_right _ _
  have hpow (k : Nat) (l : Int) : ((2 ^ k : Nat) : Rat) * 2 ^ l = 2 ^ (l + k) := by
    push_cast
    rw [zpow_add₀ (by norm_num), zpow_natCast, mul_comm]
  rcases hlast.eq_or_lt with hsame | hlt
  · rw [← hsame]
    exact Nat.add_le_add_left (digitsAt_mono hp.le hpq _) _
  · -- the digits carry into the next place at most, and there the larger number starts
    have hlow : 2 ^ m ≤ digitsAt q (lastPlace e m q) := by
      apply (digitsAt_bounds hq.le _ _).1
      rw [hpow]
      have hplace : lastPlace e m q = exponent q - m := by
        unfold lastPlace at *
        omega
      rw [hplace, sub_add_cancel]
      exact (exponent_spec hq).1
    have hhigh : digitsAt p (lastPlace e m p) ≤ 2 ^ (m + 1) := by
      apply (digitsAt_bounds hp.le _ _).2
      rw [hpow]
      apply (exponent_spec hp).2.le.trans
      apply zpow_le_zpow_right₀ (by norm_num)
      unfold lastPlace
      push_cast
      omega
    obtain ⟨d, hd⟩ : ∃ d : Nat, (lastPlace e m q - minExp e m).toNat =
        (lastPlace e m p - minExp e m).toNat + 1 + d :=
      ⟨(lastPlace e m q - lastPlace e m p - 1).toNat, by omega⟩
    calc (lastPlace e m p - minExp e m).toNat * 2 ^ m + digitsAt p (lastPlace e m p)
        ≤ (lastPlace e m p - minExp e m).toNat * 2 ^ m + 2 ^ (m + 1) :=
          Nat.add_le_add_left hhigh _
      _ = ((lastPlace e m p - minExp e m).toNat + 1) * 2 ^ m + 2 ^ m := by ring
      _ ≤ (lastPlace e m q - minExp e m).toNat * 2 ^ m + digitsAt q (lastPlace e m q) :=
          Nat.add_le_add (Nat.mul_le_mul_right _ (by omega)) hlow

/-- The value of the bits of a magnitude. -/
def worth (e m mag : Nat) : Rat :=
  if mag / 2 ^ m = 0 then scale (mag % 2 ^ m) (minExp e m)
  else scale (2 ^ m + mag % 2 ^ m) (minExp e m + ((mag / 2 ^ m : Nat) - 1))

theorem worth_succ (e m mag : Nat) : worth e m mag ≤ worth e m (mag + 1) := by
  have hm := Nat.two_pow_pos m
  have hdiv := Nat.div_add_mod mag (2 ^ m)
  have hmod := Nat.mod_lt mag hm
  have htwo : (0 : Rat) < 2 := by norm_num
  have hpos (k : Int) : (0 : Rat) ≤ 2 ^ k := (zpow_pos htwo k).le
  unfold worth
  by_cases hcarry : mag % 2 ^ m + 1 < 2 ^ m
  · have hsucc : mag + 1 = mag % 2 ^ m + 1 + 2 ^ m * (mag / 2 ^ m) := by omega
    have hexpo : (mag + 1) / 2 ^ m = mag / 2 ^ m := by
      rw [hsucc, Nat.add_mul_div_left _ _ hm, Nat.div_eq_of_lt hcarry, Nat.zero_add]
    have hfrac : (mag + 1) % 2 ^ m = mag % 2 ^ m + 1 := by
      rw [hsucc, Nat.add_mul_mod_self_left, Nat.mod_eq_of_lt hcarry]
    rw [hexpo, hfrac]
    split
    all_goals
      rw [scale_eq, scale_eq]
      apply mul_le_mul_of_nonneg_right _ (hpos _)
      push_cast
      linarith
  · -- the fraction is full, so the exponent goes up
    have hsucc : mag + 1 = 2 ^ m * (mag / 2 ^ m + 1) := by
      rw [Nat.mul_add]
      omega
    have hexpo : (mag + 1) / 2 ^ m = mag / 2 ^ m + 1 := by
      rw [hsucc, Nat.mul_div_cancel_left _ hm]
    have hfrac : (mag + 1) % 2 ^ m = 0 := by rw [hsucc, Nat.mul_mod_right]
    have hfull : ((mag % 2 ^ m : Nat) : Rat) ≤ 2 ^ m := by exact_mod_cast hmod.le
    rw [hexpo, hfrac, if_neg (Nat.succ_ne_zero _)]
    split
    · next hzero =>
      rw [hzero, scale_eq, scale_eq]
      push_cast
      rw [add_zero, add_zero]
      exact mul_le_mul_of_nonneg_right hfull (hpos _)
    · rw [scale_eq, scale_eq]
      push_cast
      rw [add_sub_cancel_right, add_zero]
      have hstep : (2 : Rat) ^ (minExp e m + (mag / 2 ^ m : Nat)) =
          2 * 2 ^ (minExp e m + ((mag / 2 ^ m : Nat) - 1)) := by
        rw [← zpow_one_add₀ htwo.ne']
        congr 1
        ring
      push_cast at hstep hfull
      rw [hstep]
      have hbound := mul_le_mul_of_nonneg_right hfull
        (hpos (minExp e m + ((mag / 2 ^ m : Nat) - 1)))
      push_cast at hbound
      linarith

theorem worth_mono (e m : Nat) : Monotone (worth e m) := monotone_nat_of_le_succ (worth_succ e m)

/-- What a float without a sign reads as. -/
def read (e m mag : Nat) : Val :=
  if mag / 2 ^ m = 2 ^ e - 1 then (if mag % 2 ^ m = 0 then .inf false else .nan)
  else .fin (worth e m mag)

theorem ofParts_val {neg : Bool} {mag : Nat} (h : mag < 2 ^ (m + e)) :
    (ofParts neg mag : Flt e m).val = if neg then (read e m mag).neg else read e m mag := by
  have hsign : ((ofParts neg mag : Flt e m).bits.toNat / 2 ^ (m + e) == 1) = neg := by
    rw [ofParts_toNat h]
    cases neg with
    | false => simp [Nat.div_eq_of_lt h]
    | true =>
      rw [if_pos rfl, Nat.add_div_left _ (Nat.two_pow_pos _), Nat.div_eq_of_lt h]
      rfl
  unfold val read worth
  simp only [ofParts_frac h, ofParts_expo h, hsign]
  cases neg with
  | false => rfl
  | true =>
    simp only [if_true]
    split
    · split <;> rfl
    · rfl

theorem read_infinite (e m : Nat) : read e m ((2 ^ e - 1) * 2 ^ m) = .inf false := by
  simp [read, Nat.mul_div_cancel _ (Nat.two_pow_pos m)]

theorem read_finite {mag : Nat} (h : mag < (2 ^ e - 1) * 2 ^ m) :
    read e m mag = .fin (worth e m mag) := by
  have hexpo : mag / 2 ^ m < 2 ^ e - 1 := Nat.div_lt_of_lt_mul (Nat.mul_comm _ _ ▸ h)
  exact if_neg (Nat.ne_of_lt hexpo)

theorem read_mono {a b : Nat} (hab : a ≤ b) (hb : b ≤ (2 ^ e - 1) * 2 ^ m) :
    (read e m a).le (read e m b) = true := by
  rcases hb.eq_or_lt with rfl | hlt
  · rw [read_infinite]
    apply Val.le_inf
    rcases hab.eq_or_lt with rfl | hlt
    · simp [read_infinite]
    · simp [read_finite hlt]
  · rw [read_finite (hab.trans_lt hlt), read_finite hlt]
    exact decide_eq_true (worth_mono e m hab)

/-- The magnitude that a number is rounded to, which for zero is none. -/
def rounded (e m : Nat) (q : Rat) : Nat := if q = 0 then 0 else magnitude e m |q|

theorem rounded_le (e m : Nat) (q : Rat) : rounded e m q ≤ (2 ^ e - 1) * 2 ^ m := by
  unfold rounded
  split
  · exact Nat.zero_le _
  · exact magnitude_le _

theorem rounded_mono {p q : Rat} (h : |p| ≤ |q|) : rounded e m p ≤ rounded e m q := by
  unfold rounded
  by_cases hp : p = 0
  · rw [if_pos hp]
    exact Nat.zero_le _
  · have hpos := abs_pos.mpr hp
    rw [if_neg hp, if_neg (abs_pos.mp (hpos.trans_le h))]
    exact magnitude_mono hpos h

theorem round_fin (q : Rat) : (round (.fin q) : Flt e m).val =
    if q < 0 then (read e m (rounded e m q)).neg else read e m (rounded e m q) := by
  have hlt := (rounded_le e m q).trans_lt infinite_lt
  have hparts : (round (.fin q) : Flt e m) = ofParts (decide (q < 0)) (rounded e m q) := by
    simp only [round, rounded]
    split
    · next hzero => simp [hzero]
    · rfl
  rw [hparts, ofParts_val hlt]
  simp only [decide_eq_true_eq]

theorem round_inf (neg : Bool) : (round (.inf neg) : Flt e m).val = .inf neg := by
  rw [round, ofParts_val infinite_lt, read_infinite]
  cases neg <;> rfl

theorem zero_le_read {mag : Nat} (h : mag ≤ (2 ^ e - 1) * 2 ^ m) :
    (Val.fin 0).le (read e m mag) = true := by
  have hzero : (Val.fin 0).le (read e m 0) = true := by
    unfold read
    split
    · simp [Val.le]
    · simp [worth, scale_eq, Val.le]
  exact Val.le_trans hzero (read_mono (Nat.zero_le _) h)

theorem read_neg_le {mag : Nat} (h : mag ≤ (2 ^ e - 1) * 2 ^ m) :
    (read e m mag).neg.le (.fin 0) = true := by
  have hneg := Val.neg_le_neg (read e m mag) (.fin 0)
  rw [zero_le_read h] at hneg
  simpa [Val.neg] using hneg

/-- Rounding keeps the order. -/
theorem round_mono {x y : Val} (hm : 0 < m) (h : x.le y = true) :
    (round x : Flt e m).val.le (round y : Flt e m).val = true := by
  obtain ⟨hx, hy⟩ := Val.le_not_nan h
  have hx' : (round x : Flt e m).val ≠ .nan := (round_nan hm).not.mpr hx
  have hy' : (round y : Flt e m).val ≠ .nan := (round_nan hm).not.mpr hy
  cases x with
  | nan => exact absurd rfl hx
  | inf a =>
    rw [round_inf] at hx' ⊢
    cases a with
    | true => exact Val.inf_le hy'
    | false =>
      cases y with
      | nan => exact absurd rfl hy
      | inf b =>
        rw [round_inf]
        exact h
      | fin q => exact absurd h (by simp [Val.le])
  | fin p =>
    cases y with
    | nan => exact absurd rfl hy
    | inf b =>
      rw [round_inf]
      cases b with
      | false => exact Val.le_inf hx'
      | true => exact absurd h (by simp [Val.le])
    | fin q =>
      have hpq : p ≤ q := of_decide_eq_true h
      have hp := rounded_le e m p
      have hq := rounded_le e m q
      rw [round_fin, round_fin]
      by_cases hpneg : p < 0
      · rw [if_pos hpneg]
        by_cases hqneg : q < 0
        · rw [if_pos hqneg, Val.neg_le_neg]
          apply read_mono _ hp
          apply rounded_mono
          rw [abs_of_neg hqneg, abs_of_neg hpneg]
          linarith
        · rw [if_neg hqneg]
          exact Val.le_trans (read_neg_le hp) (zero_le_read hq)
      · rw [if_neg hpneg, if_neg (by linarith)]
        apply read_mono _ hq
        apply rounded_mono
        rw [abs_of_nonneg (by linarith), abs_of_nonneg (by linarith)]
        exact hpq

/-- So does the multiplication with a positive number. -/
theorem mul_mono {x y k : Flt e m} {c : Rat} (hm : 0 < m) (hk : k.val = .fin c) (hc : 0 < c)
    (h : x.val.le y.val = true) : (x.mul k).val.le (y.mul k).val = true := by
  apply round_mono hm
  rw [hk]
  generalize x.val = a at h ⊢
  generalize y.val = b at h ⊢
  have hc0 : c ≠ 0 := hc.ne'
  have hsign : decide (c < 0) = false := decide_eq_false (not_lt.mpr hc.le)
  cases a <;> cases b <;> simp_all [Val.mul, Val.le, -decide_eq_false_iff_not]

end Flt

end Maybenot.Lib

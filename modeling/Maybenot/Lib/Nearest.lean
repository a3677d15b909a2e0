import Maybenot.Lib.Rounding
import Mathlib.Algebra.Order.Field.Basic

namespace Maybenot.Lib.Flt

variable {e m : Nat}

/-- The digits that a float has at its last place. -/
theorem worth_digits {k d : Nat} (hd : d ≤ 2 ^ (m + 1)) (hk : k = 0 ∨ 2 ^ m ≤ d) :
    worth e m (k * 2 ^ m + d) = d * 2 ^ (minExp e m + k) := by
  have hm := Nat.two_pow_pos m
  have htwo : (2 : Rat) ≠ 0 := by norm_num
  unfold worth
  rcases Nat.lt_or_ge d (2 ^ m) with hlow | hhigh
  · obtain rfl : k = 0 := hk.resolve_right (by omega)
    rw [Nat.zero_mul, Nat.zero_add, Nat.div_eq_of_lt hlow, Nat.mod_eq_of_lt hlow, if_pos rfl,
      scale_eq]
    simp
  rcases hd.eq_or_lt with rfl | hlt
  · -- the digits carry into the exponent
    have hcarry : k * 2 ^ m + 2 ^ (m + 1) = 2 ^ m * (k + 2) := by ring
    rw [hcarry, Nat.mul_div_cancel_left _ hm, Nat.mul_mod_right, if_neg (by omega), scale_eq]
    push_cast
    rw [show minExp e m + ((k : Int) + 2 - 1) = 1 + (minExp e m + k) by ring,
      zpow_add₀ htwo, zpow_one]
    ring
  · have hpow : 2 ^ (m + 1) = 2 * 2 ^ m := by ring
    obtain ⟨f, rfl⟩ : ∃ f, d = 2 ^ m + f := ⟨d - 2 ^ m, by omega⟩
    have hf : f < 2 ^ m := by omega
    have hsplit : k * 2 ^ m + (2 ^ m + f) = f + 2 ^ m * (k + 1) := by ring
    rw [hsplit, Nat.add_mul_div_left _ _ hm, Nat.div_eq_of_lt hf, Nat.add_mul_mod_self_left,
      Nat.mod_eq_of_lt hf, if_neg (by omega), scale_eq]
    push_cast
    rw [show minExp e m + ((0 : Int) + (k + 1) - 1) = minExp e m + k by ring]

/-- The nearest whole number is off by half at most. -/
theorem nearestEven_near (n : Nat) {d : Nat} (hd : 0 < d) :
    |(nearestEven n d : Rat) - n / d| ≤ 1 / 2 := by
  have hpos : (0 : Rat) < d := by exact_mod_cast hd
  obtain ⟨hup, hdown, -, -⟩ := nearestEven_spec n hd
  generalize nearestEven n d = k at *
  have hup' : (2 * n : Rat) ≤ (2 * k + 1) * d := by exact_mod_cast hup
  have hdown' : (2 * k * d : Rat) ≤ 2 * n + d := by exact_mod_cast hdown
  have hle : (n : Rat) / d ≤ k + 1 / 2 := by
    rw [div_le_iff₀ hpos]
    linarith
  have hge : (k : Rat) - 1 / 2 ≤ n / d := by
    rw [le_div_iff₀ hpos]
    linarith
  rw [abs_le]
  constructor <;> linarith

/-- The digits are off by half of the last place at most. -/
theorem digitsAt_near {q : Rat} (hq : 0 ≤ q) (last : Int) :
    |(digitsAt q last : Rat) * 2 ^ last - q| ≤ 2 ^ last / 2 := by
  have hden := Nat.mul_pos q.den_pos (Nat.two_pow_pos last.toNat)
  have hlast : (0 : Rat) < 2 ^ last := zpow_pos (by norm_num) _
  have hpos : ((q.den * 2 ^ last.toNat : Nat) : Rat) ≠ 0 := by exact_mod_cast hden.ne'
  have hratio : ((q.num.natAbs * 2 ^ (-last).toNat : Nat) : Rat) /
      (q.den * 2 ^ last.toNat : Nat) = q / 2 ^ last := by
    rw [div_eq_div_iff hpos hlast.ne']
    push_cast
    rw [natAbs_num hq, ← two_zpow last]
    ring
  have hnear := nearestEven_near (q.num.natAbs * 2 ^ (-last).toNat) hden
  rw [hratio] at hnear
  calc |(digitsAt q last : Rat) * 2 ^ last - q|
      = |(digitsAt q last : Rat) - q / 2 ^ last| * 2 ^ last := by
        rw [← abs_of_pos hlast, ← abs_mul, abs_of_pos hlast, sub_mul, div_mul_cancel₀ _ hlast.ne']
    _ ≤ 1 / 2 * 2 ^ last := mul_le_mul_of_nonneg_right hnear hlast.le
    _ = 2 ^ last / 2 := by ring

/-- The digits of a positive number fill the place of the last digit, and carry once at most. -/
theorem digitsAt_lastPlace {q : Rat} (hq : 0 < q) :
    digitsAt q (lastPlace e m q) ≤ 2 ^ (m + 1) ∧
      (lastPlace e m q = minExp e m ∨ 2 ^ m ≤ digitsAt q (lastPlace e m q)) := by
  have hpow (k : Nat) (l : Int) : ((2 ^ k : Nat) : Rat) * 2 ^ l = 2 ^ (l + k) := by
    push_cast
    rw [zpow_add₀ (by norm_num), zpow_natCast, mul_comm]
  constructor
  · apply (digitsAt_bounds hq.le _ _).2
    rw [hpow]
    apply (exponent_spec hq).2.le.trans
    apply zpow_le_zpow_right₀ (by norm_num)
    unfold lastPlace
    push_cast
    omega
  · rcases le_total (exponent q - m) (minExp e m) with hmin | hmin
    · exact .inl (max_eq_right hmin)
    · right
      apply (digitsAt_bounds hq.le _ _).1
      rw [hpow, lastPlace, max_eq_left hmin, sub_add_cancel]
      exact (exponent_spec hq).1

/-- What a positive number is rounded to, unless it overflows. -/
theorem round_digits {q : Rat} (hq : 0 < q) (hfin : magnitude e m q < (2 ^ e - 1) * 2 ^ m) :
    (round (.fin q) : Flt e m).val =
      .fin (digitsAt q (lastPlace e m q) * 2 ^ lastPlace e m q) := by
  have hrounded : rounded e m q = magnitude e m q := by
    unfold rounded
    rw [if_neg hq.ne', abs_of_pos hq]
  obtain ⟨hcarry, hplace⟩ := digitsAt_lastPlace (e := e) (m := m) hq
  have hmin : minExp e m ≤ lastPlace e m q := le_max_right _ _
  rw [round_fin, if_neg (not_lt.mpr hq.le), hrounded, read_finite hfin]
  rw [magnitude_eq] at hfin ⊢
  rw [min_eq_left (not_lt.mp fun h => by rw [min_eq_right h.le] at hfin; exact hfin.false),
    worth_digits hcarry (hplace.imp (fun h => by rw [h, sub_self]; rfl) id),
    show minExp e m + ((lastPlace e m q - minExp e m).toNat : Int) = lastPlace e m q by omega]

/-- Rounding moves a positive number by half of the last place at most, unless it overflows. -/
theorem round_near {q : Rat} (hq : 0 < q) (hfin : magnitude e m q < (2 ^ e - 1) * 2 ^ m) :
    ∃ v, (round (.fin q) : Flt e m).val = .fin v ∧ |v - q| ≤ 2 ^ lastPlace e m q / 2 :=
  ⟨_, round_digits hq hfin, digitsAt_near hq.le _⟩

/-- A number with the digits of a float, down to the place `k` above the last one. -/
structure Digits (e m : Nat) (v : Rat) (k d : Nat) : Prop where
  eq : v = d * 2 ^ (minExp e m + k)
  few : d < 2 ^ (m + 1)
  full : k = 0 ∨ 2 ^ m ≤ d
  fits : k * 2 ^ m + d < (2 ^ e - 1) * 2 ^ m

theorem Digits.lastPlace {v : Rat} {k d : Nat} (h : Digits e m v k d) (hv : 0 < v) :
    lastPlace e m v = minExp e m + k := by
  have htwo : (1 : Rat) < 2 := by norm_num
  have hplace : (0 : Rat) < 2 ^ (minExp e m + k) := zpow_pos (by norm_num) _
  obtain ⟨hlow, hhigh⟩ := exponent_spec hv
  have hbelow : exponent v ≤ minExp e m + k + m := by
    have hlt : v < 2 ^ (minExp e m + k + (m + 1 : Nat)) := by
      rw [h.eq, zpow_add₀ (by norm_num) _ ((m + 1 : Nat) : Int), zpow_natCast, mul_comm]
      exact mul_lt_mul_of_pos_left (by exact_mod_cast h.few) hplace
    have := (zpow_lt_zpow_iff_right₀ htwo).mp (hlow.trans_lt hlt)
    push_cast at this
    omega
  rcases h.full with rfl | hfull
  · unfold Flt.lastPlace
    push_cast at *
    omega
  · have hle : (2 : Rat) ^ (minExp e m + k + (m : Nat)) ≤ v := by
      rw [h.eq, zpow_add₀ (by norm_num) _ (m : Int), zpow_natCast, mul_comm]
      exact mul_le_mul_of_nonneg_right (by exact_mod_cast hfull) hplace.le
    have := (zpow_lt_zpow_iff_right₀ htwo).mp (hle.trans_lt hhigh)
    unfold Flt.lastPlace
    omega

/-- Rounding leaves such a number alone. -/
theorem Digits.round {v : Rat} {k d : Nat} (h : Digits e m v k d) (hv : 0 ≤ v) :
    (round (.fin v) : Flt e m).val = .fin v := by
  rcases hv.eq_or_lt with rfl | hpos
  · rw [round_fin, if_neg (lt_irrefl _), rounded, if_pos rfl]
    have hmag : 0 < (2 ^ e - 1) * 2 ^ m := (Nat.zero_le _).trans_lt h.fits
    rw [read_finite hmag]
    simp [worth, scale_eq]
  have hlast := h.lastPlace hpos
  have hdigits : digitsAt v (Flt.lastPlace e m v) = d := by
    have hbounds := digitsAt_bounds hv d (Flt.lastPlace e m v)
    rw [hlast, ← h.eq] at hbounds
    rw [hlast]
    exact le_antisymm (hbounds.2 le_rfl) (hbounds.1 le_rfl)
  have hfin : magnitude e m v < (2 ^ e - 1) * 2 ^ m := by
    rw [magnitude_eq, hdigits, hlast, add_sub_cancel_left, Int.toNat_natCast]
    exact (Nat.min_le_left _ _).trans_lt h.fits
  rw [round_digits hpos hfin, hdigits, hlast, ← h.eq]

theorem val_digits {x : Flt e m} {v : Rat} (hx : x.val = .fin v) (hv : 0 ≤ v) :
    ∃ k d, Digits e m v k d := by
  have hfrac := Nat.mod_lt x.bits.toNat (Nat.two_pow_pos m)
  have hexpo := Nat.mod_lt (x.bits.toNat / 2 ^ m) (Nat.two_pow_pos e)
  have hpow : 2 ^ (m + 1) = 2 * 2 ^ m := by ring
  have hpos (k : Int) : (0 : Rat) ≤ 2 ^ k := (zpow_pos (by norm_num) k).le
  unfold val at hx
  dsimp only at hx
  generalize x.bits.toNat % 2 ^ m = frac at hx hfrac
  generalize x.bits.toNat / 2 ^ m % 2 ^ e = expo at hx hexpo
  split at hx
  · split at hx <;> exact absurd hx (by simp)
  rename_i hfinite
  have hsmall : (expo + 1) * 2 ^ m ≤ (2 ^ e - 1) * 2 ^ m := Nat.mul_le_mul_right _ (by omega)
  have hfits : expo * 2 ^ m + frac < (2 ^ e - 1) * 2 ^ m := by
    rw [Nat.add_mul] at hsmall
    omega
  obtain ⟨k, d, hdigits⟩ : ∃ k d, Digits e m (if expo = 0 then scale frac (minExp e m)
      else scale (2 ^ m + frac) (minExp e m + (expo - 1))) k d := by
    split
    · rename_i hzero
      refine ⟨0, frac, by rw [scale_eq]; simp, by omega, .inl rfl, ?_⟩
      rw [hzero] at hfits
      exact hfits
    · rename_i hone
      refine ⟨expo - 1, 2 ^ m + frac, ?_, by omega, .inr (Nat.le_add_right _ _), ?_⟩
      · rw [scale_eq]
        push_cast [Nat.one_le_iff_ne_zero.mpr hone]
        rfl
      · have hsucc : expo * 2 ^ m = (expo - 1) * 2 ^ m + 2 ^ m := by
          rw [← Nat.succ_mul, Nat.succ_eq_add_one, Nat.sub_add_cancel (by omega)]
        omega
  generalize (if expo = 0 then scale frac (minExp e m)
    else scale (2 ^ m + frac) (minExp e m + (expo - 1))) = mag at hx hdigits
  obtain rfl := Val.fin.inj hx
  split at hv
  · -- a negative number is no less than zero only if it is zero
    have hmag : 0 ≤ mag := by
      rw [hdigits.eq]
      exact mul_nonneg (Nat.cast_nonneg _) (hpos _)
    have hzero : mag = 0 := by linarith
    rename_i hneg
    rw [if_pos hneg, hzero, neg_zero, ← hzero]
    exact ⟨k, d, hdigits⟩
  · rename_i hneg
    rw [if_neg hneg]
    exact ⟨k, d, hdigits⟩

/-- The value of a float is rounded to itself. -/
theorem round_val {x : Flt e m} {v : Rat} (hx : x.val = .fin v) (hv : 0 ≤ v) :
    (round (.fin v) : Flt e m).val = .fin v := by
  obtain ⟨k, d, hdigits⟩ := val_digits hx hv
  exact hdigits.round hv

end Maybenot.Lib.Flt

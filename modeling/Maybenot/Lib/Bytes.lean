import Mathlib.Data.Nat.ModEq
import Mathlib.Tactic.Common

namespace Maybenot.Lib.Bytes

/-- The lowest `k` bytes of a number, the lowest first. -/
def encode : Nat → Nat → List UInt8
  | 0, _ => []
  | k + 1, n => UInt8.ofNat n :: encode k (n / 256)

/-- The number that some bytes stand for, the lowest first. -/
def decode : List UInt8 → Nat
  | [] => 0
  | b :: bs => b.toNat + 256 * decode bs

@[simp] theorem encode_length (k n : Nat) : (encode k n).length = k := by
  induction k generalizing n with
  | zero => rfl
  | succ k ih => rw [encode, List.length_cons, ih]

theorem decode_encode {k n : Nat} (h : n < 256 ^ k) : decode (encode k n) = n := by
  induction k generalizing n with
  | zero =>
    have hn : n = 0 := by simpa using h
    rw [hn]
    rfl
  | succ k ih =>
    have hdiv : n / 256 < 256 ^ k := by
      apply Nat.div_lt_of_lt_mul
      rwa [Nat.pow_succ, Nat.mul_comm] at h
    have hmod : (UInt8.ofNat n).toNat = n % 256 := UInt8.toNat_ofNat'
    rw [encode, decode, ih hdiv, hmod]
    exact Nat.mod_add_div n 256

theorem decode_lt (bs : List UInt8) : decode bs < 256 ^ bs.length := by
  induction bs with
  | nil => exact Nat.one_pos
  | cons b bs ih =>
    have hb : b.toNat < 256 := b.toNat_lt
    rw [decode, List.length_cons, Nat.pow_succ]
    omega

/-- The bytes from `i` to before `j`. -/
def slice (bytes : List UInt8) (i j : Nat) : List UInt8 := (bytes.drop i).take (j - i)

theorem slice_length {bytes : List UInt8} {i j : Nat} (h : j ≤ bytes.length) :
    (slice bytes i j).length = j - i := by
  rw [slice, List.length_take, List.length_drop]
  omega

theorem slice_end (bytes : List UInt8) (i : Nat) : slice bytes i bytes.length = bytes.drop i := by
  rw [slice, ← List.length_drop, List.take_length]

/-- A part of some bytes is their slice at its place. -/
theorem slice_part {bytes part rest : List UInt8} {i j : Nat}
    (h : bytes.drop i = part ++ rest) (hj : j = i + part.length) : slice bytes i j = part := by
  rw [slice, h, hj, Nat.add_sub_cancel_left]
  exact List.take_left

/-- What is left after a part begins where the part ends. -/
theorem drop_part {bytes part rest : List UInt8} {i j : Nat}
    (h : bytes.drop i = part ++ rest) (hj : j = i + part.length) : bytes.drop j = rest := by
  rw [hj, ← List.drop_drop, h]
  exact List.drop_left

theorem getD_part {bytes rest : List UInt8} {b d : UInt8} {i : Nat}
    (h : bytes.drop i = b :: rest) : bytes.getD i d = b := by
  rw [List.getD_eq_getElem?_getD, ← Nat.add_zero i, ← List.getElem?_drop, h]
  rfl

end Maybenot.Lib.Bytes

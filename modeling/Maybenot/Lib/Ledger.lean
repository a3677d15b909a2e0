import Mathlib.Algebra.Order.BigOperators.Group.Finset
import Mathlib.Data.Fintype.BigOperators
import Mathlib.Data.Rat.Cast.Order
import Mathlib.Logic.Function.Basic
import Mathlib.Tactic.Linarith
import Maybenot.Lib.Run

namespace Maybenot.Lib

/-- Accounts that spend one unit at a time, each on request. -/
structure Ledger (ι : Type) where
  spent : ι → Nat
  asked : ι → Prop
  total : Nat
  earned : Nat

namespace Ledger

variable {ι : Type} (budget : ι → Nat) (rate : ℚ)

/-- A request is granted within the account's budget, or while the total is within the rate. -/
def Granted (l : Ledger ι) (i : ι) : Prop :=
  l.spent i < budget i ∨ (l.total : ℚ) ≤ rate * (l.total + l.earned)

/-- Requests are kept, dropped or granted anew; what is spent uses up a request. -/
inductive Step [DecidableEq ι] (l l' : Ledger ι) : Prop
  | earn (hspent : l'.spent = l.spent) (htotal : l'.total = l.total)
      (hearned : l.earned ≤ l'.earned)
      (hasked : ∀ i, l'.asked i → l.asked i ∨ l'.Granted budget rate i)
  | spend (i : ι) (hi : l.asked i) (hspent : l'.spent = Function.update l.spent i (l.spent i + 1))
      (htotal : l'.total = l.total + 1) (hearned : l'.earned = l.earned)
      (hasked : ∀ j, l'.asked j → l.asked j ∧ j ≠ i ∨ l'.Granted budget rate j)

/-- Nothing is spent or asked for. -/
def Empty (l : Ledger ι) : Prop :=
  (∀ i, l.spent i = 0) ∧ (∀ i, ¬ l.asked i) ∧ l.total = 0

variable [Fintype ι]

open Classical in
/-- The requests that are beyond the budgets. -/
noncomputable def beyond (l : Ledger ι) : Finset ι :=
  Finset.univ.filter fun i => l.asked i ∧ budget i ≤ l.spent i

/-- What is left of the budgets. -/
def unspent (l : Ledger ι) : Nat := ∑ i, (budget i - l.spent i)

theorem mem_beyond {l : Ledger ι} {i : ι} :
    i ∈ l.beyond budget ↔ l.asked i ∧ budget i ≤ l.spent i := by
  classical
  simp [beyond]

/-- The total goes past the rate by no more than the budgets and one request of each account. -/
def Within (l : Ledger ι) : Prop :=
  (l.total : ℚ) + (l.beyond budget).card + l.unspent budget ≤
    rate * (l.total + l.earned) + Fintype.card ι + ∑ i, budget i

theorem unspent_le (l : Ledger ι) : l.unspent budget ≤ ∑ i, budget i :=
  Finset.sum_le_sum fun _ _ => Nat.sub_le _ _

theorem beyond_card_le (l : Ledger ι) : (l.beyond budget).card ≤ Fintype.card ι :=
  Finset.card_le_univ _

variable {budget rate}

theorem Empty.within {l : Ledger ι} (h : l.Empty) (hrate : 0 ≤ rate) : l.Within budget rate := by
  obtain ⟨_, hasked, htotal⟩ := h
  have hnone : l.beyond budget = ∅ :=
    Finset.eq_empty_of_forall_notMem fun i hi => hasked i ((mem_beyond budget).mp hi).1
  have hunspent : (l.unspent budget : ℚ) ≤ ∑ i, budget i := by exact_mod_cast l.unspent_le budget
  have hearned : 0 ≤ rate * (l.earned : ℚ) := mul_nonneg hrate (Nat.cast_nonneg _)
  unfold Within
  rw [hnone, htotal, Finset.card_empty]
  push_cast at hunspent ⊢
  linarith [(Nat.cast_nonneg (Fintype.card ι) : (0 : ℚ) ≤ _)]

/-- A total within the rate is within it with all budgets and requests. -/
theorem within_of_rate {l : Ledger ι} (h : (l.total : ℚ) ≤ rate * (l.total + l.earned)) :
    l.Within budget rate := by
  have hunspent : (l.unspent budget : ℚ) ≤ ∑ i, budget i := by exact_mod_cast l.unspent_le budget
  have hbeyond : ((l.beyond budget).card : ℚ) ≤ Fintype.card ι := by
    exact_mod_cast l.beyond_card_le budget
  unfold Within
  linarith

variable [DecidableEq ι]

theorem Within.step {l l' : Ledger ι} (h : l.Within budget rate) (hrate : 0 ≤ rate)
    (hstep : Step budget rate l l') : l'.Within budget rate := by
  -- a request beyond its budget that is granted anew is granted by the rate, as it is now
  by_cases hnew : (l'.total : ℚ) ≤ rate * (l'.total + l'.earned)
  · exact within_of_rate hnew
  unfold Within at h ⊢
  cases hstep with
  | earn hspent htotal hearned hasked =>
    have hfewer : l'.beyond budget ⊆ l.beyond budget := by
      intro i hi
      obtain ⟨hi, hb⟩ := (mem_beyond budget).mp hi
      rw [mem_beyond, ← hspent]
      rcases hasked i hi with hold | hlt | hle
      · exact ⟨hold, hb⟩
      · exact absurd hlt (not_lt_of_ge hb)
      · exact absurd hle hnew
    have hcard : ((l'.beyond budget).card : ℚ) ≤ (l.beyond budget).card := by
      exact_mod_cast Finset.card_le_card hfewer
    have hunspent : l'.unspent budget = l.unspent budget := by rw [unspent, hspent, unspent]
    have hmore : rate * (l.earned : ℚ) ≤ rate * l'.earned :=
      mul_le_mul_of_nonneg_left (by exact_mod_cast hearned) hrate
    rw [hunspent, htotal]
    linarith
  | spend i hi hspent htotal hearned hasked =>
    have hother {j : ι} (hj : j ≠ i) : l'.spent j = l.spent j := by
      rw [hspent, Function.update_of_ne hj]
    have hown : l'.spent i = l.spent i + 1 := by rw [hspent, Function.update_self]
    have hfewer : l'.beyond budget ⊆ (l.beyond budget).erase i := by
      intro j hj
      obtain ⟨hj, hb⟩ := (mem_beyond budget).mp hj
      rcases hasked j hj with ⟨hold, hne⟩ | hlt | hle
      · rw [hother hne] at hb
        exact Finset.mem_erase.mpr ⟨hne, (mem_beyond budget).mpr ⟨hold, hb⟩⟩
      · exact absurd hlt (not_lt_of_ge hb)
      · exact absurd hle hnew
    have hless (j : ι) : budget j - l'.spent j ≤ budget j - l.spent j := by
      by_cases hj : j = i
      · rw [hj, hown]
        omega
      · rw [hother hj]
    -- either the budget of the account shrinks, or its request beyond the budget is gone
    have hused : (l'.beyond budget).card + l'.unspent budget + 1 ≤
        (l.beyond budget).card + l.unspent budget := by
      by_cases hb : budget i ≤ l.spent i
      · have hmem : i ∈ l.beyond budget := (mem_beyond budget).mpr ⟨hi, hb⟩
        have hcard := Finset.card_le_card hfewer
        rw [Finset.card_erase_of_mem hmem] at hcard
        have hpos : 0 < (l.beyond budget).card := Finset.card_pos.mpr ⟨i, hmem⟩
        have hsum : l'.unspent budget ≤ l.unspent budget := Finset.sum_le_sum fun j _ => hless j
        omega
      · have hcard : (l'.beyond budget).card ≤ (l.beyond budget).card :=
          (Finset.card_le_card hfewer).trans (Finset.card_le_card (Finset.erase_subset i _))
        have hsum : l'.unspent budget < l.unspent budget :=
          Finset.sum_lt_sum (fun j _ => hless j) ⟨i, Finset.mem_univ i, by rw [hown]; omega⟩
        omega
    have hused : ((l'.beyond budget).card : ℚ) + l'.unspent budget + 1 ≤
        (l.beyond budget).card + l.unspent budget := by exact_mod_cast hused
    rw [htotal, hearned]
    push_cast at h ⊢
    linarith

/-- Over any run the total is within the rate, the budgets and one request of each account. -/
theorem total_le {l : Ledger ι} (hrate : 0 ≤ rate)
    (h : Reach Empty (Step budget rate) l) :
    (l.total : ℚ) ≤ rate * (l.total + l.earned) + Fintype.card ι + ∑ i, budget i := by
  have hwithin : l.Within budget rate :=
    h.invariant (P := fun l => l.Within budget rate) (fun l hl => hl.within hrate)
      fun l l' hl hstep => hl.step hrate hstep
  unfold Within at hwithin
  have hcard : (0 : ℚ) ≤ (l.beyond budget).card := Nat.cast_nonneg _
  have hunspent : (0 : ℚ) ≤ l.unspent budget := Nat.cast_nonneg _
  linarith

end Ledger

end Maybenot.Lib

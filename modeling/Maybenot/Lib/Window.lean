import Mathlib.Algebra.Order.Group.Defs
import Mathlib.Data.Multiset.Filter
import Mathlib.Tactic.Abel

namespace Maybenot.Lib

section Count

variable {P Q S : α → Prop} [DecidablePred P] [DecidablePred Q] [DecidablePred S]
  {s : Multiset α}

/-- Points with one of two properties are at most those with the first and those with the
second. -/
theorem countP_le_add (h : ∀ x ∈ s, P x → Q x ∨ S x) :
    s.countP P ≤ s.countP Q + s.countP S := by
  induction s using Multiset.induction with
  | empty => exact Nat.le_refl 0
  | cons x s ih =>
    have hs := ih fun y hy => h y (Multiset.mem_cons_of_mem hy)
    have hx := h x (Multiset.mem_cons_self x s)
    rw [Multiset.countP_cons, Multiset.countP_cons, Multiset.countP_cons]
    by_cases hp : P x
    · rcases hx hp with hq | hs'
      · rw [if_pos hp, if_pos hq]
        omega
      · rw [if_pos hp, if_pos hs']
        omega
    · rw [if_neg hp]
      omega

theorem countP_le_countP (h : ∀ x ∈ s, P x → Q x) : s.countP P ≤ s.countP Q := by
  have hadd := countP_le_add (S := fun _ => False) fun x hx hp => .inl (h x hx hp)
  have hnone : s.countP (fun _ => False) = 0 := Multiset.countP_eq_zero.mpr fun _ _ hf => hf
  rwa [hnone, Nat.add_zero] at hadd

end Count

section Crowd

variable [AddCommGroup α] [LinearOrder α]

/-- How many points lie in the window of a width that starts at `a`. -/
def crowd (width : α) (ts : Multiset α) (a : α) : Nat := ts.countP fun t => a ≤ t ∧ t ≤ a + width

/-- In no window of the width lie more than `m` points. -/
def Uncrowded (width : α) (m : Nat) (ts : Multiset α) : Prop := ∀ a, crowd width ts a ≤ m

/-- The points of a list that are no more than a width before `now`. -/
def recent (width now : α) (ts : List α) : List α := ts.filter fun t => decide (now - width ≤ t)

theorem recent_append (width now : α) (ts us : List α) :
    recent width now (ts ++ us) = recent width now ts ++ recent width now us :=
  List.filter_append ..

namespace Uncrowded

variable {width : α} {m n : Nat} {ts us : Multiset α}

theorem zero (width : α) (m : Nat) : Uncrowded width m 0 := fun _ => Nat.zero_le m

theorem mono (h : Uncrowded width m ts) (hmn : m ≤ n) : Uncrowded width n ts :=
  fun a => (h a).trans hmn

theorem of_le (h : Uncrowded width m ts) (hle : us ≤ ts) : Uncrowded width m us :=
  fun a => (Multiset.countP_le_of_le _ hle).trans (h a)

/-- A window so many times as wide holds so many times as many points at most. -/
theorem cover (h : Uncrowded width m ts) (k : Nat) :
    Uncrowded ((k + 1) • width) ((k + 1) * m) ts := by
  induction k with
  | zero =>
    intro a
    rw [zero_add, one_nsmul, Nat.one_mul]
    exact h a
  | succ k ih =>
    intro a
    have hsplit : crowd ((k + 1 + 1) • width) ts a ≤
        crowd ((k + 1) • width) ts a + crowd width ts (a + (k + 1) • width) := by
      refine countP_le_add fun x _ hx => ?_
      rcases le_total x (a + (k + 1) • width) with hle | hge
      · exact .inl ⟨hx.1, hle⟩
      · refine .inr ⟨hge, hx.2.trans_eq ?_⟩
        rw [succ_nsmul width (k + 1), add_assoc]
    have hfirst := ih a
    have hlast := h (a + (k + 1) • width)
    calc crowd ((k + 1 + 1) • width) ts a
        ≤ (k + 1) * m + m := hsplit.trans (Nat.add_le_add hfirst hlast)
      _ = (k + 1 + 1) * m := (Nat.succ_mul (k + 1) m).symm

variable [IsOrderedAddMonoid α]

/-- A point that is not before the others can only crowd the windows that end at or after it,
of which the one that ends with it has the most points. -/
theorem cons {t : α} (h : Uncrowded width m ts) (hlast : ∀ x ∈ ts, x ≤ t)
    (hcrowd : crowd width (t ::ₘ ts) (t - width) ≤ m) : Uncrowded width m (t ::ₘ ts) := by
  intro a
  by_cases ht : a ≤ t ∧ t ≤ a + width
  · apply le_trans ?_ hcrowd
    apply countP_le_countP
    intro x hx hp
    have hxt : x ≤ t := by
      rcases Multiset.mem_cons.mp hx with rfl | hx
      · exact le_rfl
      · exact hlast x hx
    refine ⟨(sub_le_iff_le_add.mpr ht.2).trans hp.1, ?_⟩
    rw [sub_add_cancel]
    exact hxt
  · have hsame : crowd width (t ::ₘ ts) a = crowd width ts a :=
      Multiset.countP_cons_of_neg _ ht
    exact hsame ▸ h a

/-- Points that are all moved lie as close as before. -/
theorem shift (h : Uncrowded width m ts) (d : α) : Uncrowded width m (ts.map (· + d)) := by
  intro a
  have hsame : crowd width (ts.map (· + d)) a = crowd width ts (a - d) := by
    unfold crowd
    rw [Multiset.countP_map, Multiset.countP_eq_card_filter]
    congr 1
    refine Multiset.filter_congr fun x _ => ?_
    have hmove : a - d + width = a + width - d := by abel
    rw [sub_le_iff_le_add, hmove, le_sub_iff_add_le]
  exact hsame ▸ h (a - d)

end Uncrowded

variable [IsOrderedAddMonoid α]

/-- What is recent later was recent before. -/
theorem recent_recent {now now' : α} (width : α) (h : now ≤ now') (ts : List α) :
    recent width now' (recent width now ts) = recent width now' ts := by
  unfold recent
  rw [List.filter_filter]
  apply List.filter_congr
  intro t _
  rw [Bool.and_eq_left_iff_imp]
  intro ht
  exact decide_eq_true ((sub_le_sub_right h width).trans (of_decide_eq_true ht))

omit [IsOrderedAddMonoid α] in
theorem recent_length {width now : α} {ts : List α} (h : ∀ t ∈ ts, t ≤ now) :
    (recent width now ts).length = crowd width ts (now - width) := by
  unfold recent crowd
  rw [Multiset.coe_countP, ← List.countP_eq_length_filter]
  apply List.countP_congr
  intro t ht
  rw [decide_eq_true_iff, decide_eq_true_iff, sub_add_cancel]
  exact ⟨fun hle => ⟨hle, h t ht⟩, fun hle => hle.1⟩

omit [IsOrderedAddMonoid α] in
/-- Of points in order those that are not recent are the first ones. -/
theorem dropWhile_recent {ts : List α} (width now : α) (h : ts.Pairwise (· ≤ ·)) :
    ts.dropWhile (fun t => decide (t < now - width)) = recent width now ts := by
  induction ts with
  | nil => rfl
  | cons t ts ih =>
    obtain ⟨hfirst, hrest⟩ := List.pairwise_cons.mp h
    unfold recent at ih ⊢
    by_cases ht : t < now - width
    · rw [List.dropWhile_cons, if_pos (decide_eq_true ht), ih hrest,
        List.filter_cons_of_neg (by simpa using ht)]
    · have hall : ∀ x ∈ t :: ts, decide (now - width ≤ x) = true := by
        intro x hx
        apply decide_eq_true
        rcases List.mem_cons.mp hx with rfl | hx
        · exact not_lt.mp ht
        · exact (not_lt.mp ht).trans (hfirst x hx)
      rw [List.dropWhile_cons, if_neg (by simpa using ht), List.filter_eq_self.mpr hall]

end Crowd

end Maybenot.Lib

import Mathlib.Data.List.Sort
import Mathlib.Tactic.Common

namespace Maybenot.Lib

variable {α : Type _} [LinearOrder α]

/-- What a binary search promises on a sorted list: the place of an element that is equal, any of
several, or the place where there is none and one could be put in. Of a list that is not sorted it
promises nothing. -/
structure Searches (search : List α → α → Except Nat Nat) : Prop where
  found {xs : List α} {x : α} {i : Nat} : xs.Pairwise (· ≤ ·) → search xs x = .ok i →
    xs[i]? = some x
  absent {xs : List α} {x : α} {i : Nat} : xs.Pairwise (· ≤ ·) → search xs x = .error i →
    i ≤ xs.length ∧ ∀ j y, xs[j]? = some y → (j < i → y < x) ∧ (i ≤ j → x < y)

theorem getElem?_le {xs : List α} (h : xs.Pairwise (· ≤ ·)) {i j : Nat} {x y : α}
    (hx : xs[i]? = some x) (hy : xs[j]? = some y) (hij : i ≤ j) : x ≤ y := by
  obtain ⟨hi, rfl⟩ := List.getElem?_eq_some_iff.mp hx
  obtain ⟨hj, rfl⟩ := List.getElem?_eq_some_iff.mp hy
  rcases hij.eq_or_lt with rfl | hlt
  · exact le_rfl
  · exact List.pairwise_iff_getElem.mp h i j hi hj hlt

/-- The rounds of a binary search between two places, so many at most. -/
def searchBetween (xs : List α) (x : α) : Nat → Nat → Nat → Except Nat Nat
  | 0, left, _ => .error left
  | n + 1, left, right =>
    if left < right then
      let mid := left + (right - left) / 2
      match xs[mid]? with
      | none => .error left
      | some y =>
        if y < x then searchBetween xs x n (mid + 1) right
        else if x < y then searchBetween xs x n left mid
        else .ok mid
    else .error left

def binarySearch (xs : List α) (x : α) : Except Nat Nat :=
  searchBetween xs x xs.length 0 xs.length

/-- What a round keeps: everything left of the interval is less, everything right of it greater. -/
structure Between (xs : List α) (x : α) (left right : Nat) : Prop where
  ordered : left ≤ right
  inside : right ≤ xs.length
  less : ∀ j y, xs[j]? = some y → j < left → y < x
  greater : ∀ j y, xs[j]? = some y → right ≤ j → x < y

theorem searchBetween_spec {xs : List α} {x : α} (hs : xs.Pairwise (· ≤ ·)) {n left right : Nat}
    (hn : right ≤ left + n) (h : Between xs x left right) :
    (∀ i, searchBetween xs x n left right = .ok i → xs[i]? = some x) ∧
      ∀ i, searchBetween xs x n left right = .error i → Between xs x i i := by
  have hclosed {left right : Nat} (h : Between xs x left right) (hle : right ≤ left) :
      Between xs x left left :=
    ⟨le_rfl, h.ordered.trans h.inside, h.less, fun j y hy hj => h.greater j y hy (hle.trans hj)⟩
  induction n generalizing left right with
  | zero =>
    constructor
    · intro i hi
      cases hi
    · intro i hi
      cases hi
      exact hclosed h hn
  | succ n ih =>
    rw [searchBetween]
    by_cases hlt : left < right
    · have hmid : left + (right - left) / 2 < right := by omega
      have hlen := hmid.trans_le h.inside
      simp only [if_pos hlt, List.getElem?_eq_getElem hlen]
      generalize hm : left + (right - left) / 2 = mid at *
      have hget : xs[mid]? = some xs[mid] := List.getElem?_eq_getElem hlen
      split
      · next hless =>
        refine ih (by omega) ⟨hmid, h.inside, fun j y hy hj => ?_, h.greater⟩
        exact (getElem?_le hs hy hget (by omega)).trans_lt hless
      · split
        · next hgreater =>
          refine ih (by omega) ⟨by omega, hlen.le, h.less, fun j y hy hj => ?_⟩
          exact hgreater.trans_le (getElem?_le hs hget hy hj)
        · next hnot hnot' =>
          have heq : xs[mid] = x := le_antisymm (not_lt.mp hnot') (not_lt.mp hnot)
          constructor
          · intro i hi
            cases hi
            rw [hget, heq]
          · intro i hi
            cases hi
    · rw [if_neg hlt]
      constructor
      · intro i hi
        cases hi
      · intro i hi
        cases hi
        exact hclosed h (not_lt.mp hlt)

theorem binarySearch_searches : Searches (binarySearch (α := α)) := by
  have hall (xs : List α) (x : α) : Between xs x 0 xs.length :=
    ⟨Nat.zero_le _, le_rfl, fun j y _ hj => absurd hj (Nat.not_lt_zero j), fun j y hy hj =>
      absurd (List.getElem?_eq_some_iff.mp hy).1 (Nat.not_lt.mpr hj)⟩
  constructor
  · intro xs x i hs h
    exact (searchBetween_spec hs (Nat.le_add_left _ _) (hall xs x)).1 i h
  · intro xs x i hs h
    have hi := (searchBetween_spec hs (Nat.le_add_left _ _) (hall xs x)).2 i h
    exact ⟨hi.inside, fun j y hy => ⟨hi.less j y hy, hi.greater j y hy⟩⟩

/-- A search with one answer replaced. -/
def answerAt (search : List α → α → Except Nat Nat) (xs : List α) (x : α) (i : Nat) (ys : List α)
    (y : α) : Except Nat Nat :=
  if ys = xs ∧ y = x then .ok i else search ys y

theorem answerAt_self (search : List α → α → Except Nat Nat) (xs : List α) (x : α) (i : Nat) :
    answerAt search xs x i xs x = .ok i := if_pos ⟨rfl, rfl⟩

/-- Where nothing is promised, or another place that keeps the promise, any search could have
answered so. -/
theorem Searches.answerAt {search : List α → α → Except Nat Nat} (h : Searches search)
    {xs : List α} {x : α} {i : Nat} (hi : xs.Pairwise (· ≤ ·) → xs[i]? = some x) :
    Searches (answerAt search xs x i) := by
  constructor
  · intro ys y j hs hj
    unfold Lib.answerAt at hj
    split at hj
    · next heq =>
      obtain ⟨rfl, rfl⟩ := heq
      cases hj
      exact hi hs
    · exact h.found hs hj
  · intro ys y j hs hj
    unfold Lib.answerAt at hj
    split at hj
    · cases hj
    · exact h.absent hs hj

end Maybenot.Lib

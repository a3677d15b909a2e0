import Mathlib.Data.Multiset.AddSub
import Mathlib.Tactic.Common

namespace Maybenot.Lib

/-- The order a heap is kept in: a total preorder, given by the test `cmp` makes. -/
class HeapOrd (α : Type) where
  le : α → α → Bool
  le_total : ∀ a b, le a b = true ∨ le b a = true
  le_trans : ∀ {a b c}, le a b = true → le b c = true → le a c = true

namespace HeapOrd

theorem le_refl [HeapOrd α] (a : α) : le a a = true :=
  (le_total a a).elim id id

theorem le_of_not_le [HeapOrd α] {a b : α} (h : ¬ le a b = true) : le b a = true :=
  (le_total a b).resolve_left h

end HeapOrd

open HeapOrd

variable {α : Type} [HeapOrd α]

/-- Move the element at `pos` up while it is greater than its parent. -/
def siftUp (a : Array α) (pos : Nat) : Array α :=
  if h : 0 < pos ∧ pos < a.size then
    if le a[pos] (a[(pos - 1) / 2]) then a
    else siftUp (a.swap pos ((pos - 1) / 2)) ((pos - 1) / 2)
  else a
termination_by pos

/-- Move the element at `pos` all the way down, always below its greater child,
and then up again to its place. -/
def siftDownToBottom (a : Array α) (pos : Nat) : Array α :=
  if h : 2 * pos + 2 < a.size then
    if le a[2 * pos + 1] a[2 * pos + 2] then
      siftDownToBottom (a.swap pos (2 * pos + 2)) (2 * pos + 2)
    else siftDownToBottom (a.swap pos (2 * pos + 1)) (2 * pos + 1)
  else if h : 2 * pos + 1 < a.size then
    siftUp (a.swap pos (2 * pos + 1)) (2 * pos + 1)
  else siftUp a pos
termination_by a.size - pos

/-- The pair of position `i` and its parent is in order. -/
def PairOrdered (a : Array α) (i : Nat) : Prop :=
  ∀ h : i < a.size, le a[i] (a[(i - 1) / 2]) = true

def Ordered (a : Array α) : Prop := ∀ i, 0 < i → PairOrdered a i

/-- What both sifts need: the pairs off the hole are in order, and the hole's
children are not greater than its parent. -/
structure Hole (a : Array α) (pos : Nat) : Prop where
  off : ∀ i, 0 < i → i ≠ pos → (i - 1) / 2 ≠ pos → PairOrdered a i
  above : 0 < pos → ∀ i (hi : i < a.size) (_ : 0 < i) (_ : (i - 1) / 2 = pos),
    le a[i] (a[(pos - 1) / 2]) = true

/-- On the way up the hole's children are below it as well. -/
structure UpHole (a : Array α) (pos : Nat) : Prop extends Hole a pos where
  below : ∀ i, 0 < i → (i - 1) / 2 = pos → PairOrdered a i

theorem UpHole.ordered {a : Array α} (h : UpHole a 0) : Ordered a := by
  intro i hi
  by_cases hp : (i - 1) / 2 = 0
  · exact h.below i hi hp
  · exact h.off i hi (by omega) hp

theorem UpHole.stop {a : Array α} {pos : Nat} (h : UpHole a pos)
    (hp : PairOrdered a pos) : Ordered a := by
  intro i hi
  by_cases he : i = pos
  · exact he ▸ hp
  · by_cases hq : (i - 1) / 2 = pos
    · exact h.below i hi hq
    · exact h.off i hi he hq

/-- Swapping a greater element with its parent moves the hole to the parent. -/
theorem UpHole.up {a : Array α} {pos : Nat} (h : UpHole a pos) (h0 : 0 < pos)
    (hlt : pos < a.size) (hgt : ¬ le a[pos] (a[(pos - 1) / 2]) = true) :
    UpHole (a.swap pos ((pos - 1) / 2)) ((pos - 1) / 2) := by
  have hge := le_of_not_le hgt
  have hpar : 0 < (pos - 1) / 2 → le (a[(pos - 1) / 2]) (a[((pos - 1) / 2 - 1) / 2]) = true :=
    fun hq => h.off _ hq (by omega) (by omega) (by omega)
  refine ⟨⟨?_, ?_⟩, ?_⟩
  · intro i hi hne hnp hs
    simp only [Array.size_swap] at hs
    simp only [Array.getElem_swap]
    by_cases he : i = pos
    · exact absurd (he ▸ rfl) hnp
    · by_cases hq : (i - 1) / 2 = pos
      · simp only [he, hne, hq, ↓reduceIte]
        exact h.above h0 i hs hi hq
      · simp only [he, hne, hq, hnp, ↓reduceIte]
        exact h.off i hi he hq hs
  · intro hq i hs hi hp
    simp only [Array.size_swap] at hs
    simp only [Array.getElem_swap]
    have hn : ¬ ((pos - 1) / 2 - 1) / 2 = pos := by omega
    have hn' : ¬ ((pos - 1) / 2 - 1) / 2 = (pos - 1) / 2 := by omega
    have hn'' : ¬ i = (pos - 1) / 2 := by omega
    by_cases he : i = pos
    · simp only [he, hn, hn', ↓reduceIte]
      exact hpar hq
    · simp only [he, hn, hn', hn'', ↓reduceIte]
      have hpair := h.off i hi he (by omega) hs
      simp only [hp] at hpair
      exact HeapOrd.le_trans hpair (hpar hq)
  · intro i hi hp hs
    simp only [Array.size_swap] at hs
    simp only [Array.getElem_swap]
    have hn : ¬ (pos - 1) / 2 = pos := by omega
    have hn' : ¬ i = (pos - 1) / 2 := by omega
    by_cases he : i = pos
    · simp only [he, hn, ↓reduceIte]
      exact hge
    · simp only [he, hn, hn', hp, ↓reduceIte]
      have hpair := h.off i hi he (by omega) hs
      simp only [hp] at hpair
      exact HeapOrd.le_trans hpair hge

theorem siftUp_ordered (a : Array α) (pos : Nat) (h : UpHole a pos) :
    Ordered (siftUp a pos) := by
  induction a, pos using siftUp.induct with
  | case1 a pos hin hle =>
    rw [siftUp]
    simp only [hin, hle, and_self, ↓reduceDIte, ↓reduceIte]
    exact h.stop (fun _ => hle)
  | case2 a pos hin hle ih =>
    rw [siftUp]
    simp only [hin, hle, and_self, ↓reduceDIte]
    exact ih (h.up hin.1 hin.2 hle)
  | case3 a pos hout =>
    rw [siftUp]
    simp only [hout, ↓reduceDIte]
    by_cases h0 : pos = 0
    · subst h0
      exact h.ordered
    · exact h.stop (fun hs => absurd ⟨Nat.pos_of_ne_zero h0, hs⟩ hout)

theorem siftUp_perm (a : Array α) (pos : Nat) : (siftUp a pos).Perm a := by
  induction a, pos using siftUp.induct with
  | case1 a pos hin hle => rw [siftUp]; simp [hin, hle, Array.Perm.refl]
  | case2 a pos hin hle ih =>
    rw [siftUp]
    simp only [hin, hle, and_self, ↓reduceDIte]
    exact ih.trans (Array.swap_perm _ _)
  | case3 a pos hout => rw [siftUp]; simp [hout, Array.Perm.refl]

/-- Swapping the hole with its greater child moves the hole there. -/
theorem Hole.down {a : Array α} {pos c : Nat} (h : Hole a pos) (hlt : pos < a.size)
    (hc : c < a.size) (h0 : 0 < c) (hp : (c - 1) / 2 = pos)
    (hmax : ∀ i (hi : i < a.size), 0 < i → (i - 1) / 2 = pos → le a[i] a[c] = true) :
    Hole (a.swap pos c) c := by
  refine ⟨?_, ?_⟩
  · intro i hi hne hnp hs
    simp only [Array.size_swap] at hs
    simp only [Array.getElem_swap]
    by_cases he : i = pos
    · have hn : ¬ (i - 1) / 2 = pos := by omega
      simp only [he ▸ hn, he ▸ hnp, he, ↓reduceIte]
      exact h.above (he ▸ hi) c hc h0 hp
    · by_cases hq : (i - 1) / 2 = pos
      · simp only [he, hne, hq, ↓reduceIte]
        exact hmax i hs hi hq
      · simp only [he, hne, hq, hnp, ↓reduceIte]
        exact h.off i hi he hq hs
  · intro _ i hs hi hic
    simp only [Array.size_swap] at hs
    simp only [Array.getElem_swap]
    have he : ¬ i = pos := by omega
    have hne : ¬ i = c := by omega
    simp only [he, hne, hp, ↓reduceIte]
    have hpair := h.off i hi he (by omega) hs
    simpa only [hic] using hpair

theorem Hole.bottom {a : Array α} {pos : Nat} (h : Hole a pos) (hb : a.size ≤ 2 * pos + 1) :
    UpHole a pos :=
  ⟨h, fun i hi hp hs => absurd hs (by omega)⟩

theorem siftDownToBottom_ordered (a : Array α) (pos : Nat) (hlt : pos < a.size)
    (h : Hole a pos) : Ordered (siftDownToBottom a pos) := by
  induction a, pos using siftDownToBottom.induct with
  | case1 a pos hin hle ih =>
    rw [siftDownToBottom]
    simp only [hin, hle, ↓reduceDIte, ↓reduceIte]
    refine ih (by simpa using hin) (h.down hlt hin (by omega) (by omega) ?_)
    intro i hi h0 hp
    obtain rfl | rfl : i = 2 * pos + 1 ∨ i = 2 * pos + 2 := by omega
    · exact hle
    · exact le_refl _
  | case2 a pos hin hle ih =>
    rw [siftDownToBottom]
    simp only [hin, hle, ↓reduceDIte]
    refine ih (by simp; omega) (h.down hlt (by omega) (by omega) (by omega) ?_)
    intro i hi h0 hp
    obtain rfl | rfl : i = 2 * pos + 1 ∨ i = 2 * pos + 2 := by omega
    · exact le_refl _
    · exact le_of_not_le hle
  | case3 a pos hout hin =>
    rw [siftDownToBottom]
    simp only [hout, hin, ↓reduceDIte]
    apply siftUp_ordered
    refine (h.down hlt hin (by omega) (by omega) ?_).bottom (by simp; omega)
    intro i hi h0 hp
    obtain rfl : i = 2 * pos + 1 := by omega
    exact le_refl _
  | case4 a pos hout hin =>
    rw [siftDownToBottom]
    simp only [hout, hin, ↓reduceDIte]
    exact siftUp_ordered a pos (h.bottom (by omega))

theorem siftDownToBottom_perm (a : Array α) (pos : Nat) :
    (siftDownToBottom a pos).Perm a := by
  induction a, pos using siftDownToBottom.induct with
  | case1 a pos hin hle ih =>
    rw [siftDownToBottom]
    simp only [hin, hle, ↓reduceDIte, ↓reduceIte]
    exact ih.trans (Array.swap_perm _ _)
  | case2 a pos hin hle ih =>
    rw [siftDownToBottom]
    simp only [hin, hle, ↓reduceDIte]
    exact ih.trans (Array.swap_perm _ _)
  | case3 a pos hout hin =>
    rw [siftDownToBottom]
    simp only [hout, hin, ↓reduceDIte]
    exact (siftUp_perm _ _).trans (Array.swap_perm _ _)
  | case4 a pos hout hin =>
    rw [siftDownToBottom]
    simp only [hout, hin, ↓reduceDIte]
    exact siftUp_perm _ _

/-- The root of an ordered array is at least every element. -/
theorem Ordered.root {a : Array α} (h : Ordered a) (i : Nat) (hi : i < a.size) :
    le a[i] a[0] = true := by
  induction i using Nat.strongRecOn with
  | ind i ih =>
    by_cases h0 : i = 0
    · subst h0
      exact le_refl _
    · exact HeapOrd.le_trans (h i (by omega) hi) (ih ((i - 1) / 2) (by omega) (by omega))

/-- A binary heap, its greatest element at position 0. -/
structure BinaryHeap (α : Type) [HeapOrd α] where
  data : Array α
  ordered : Ordered data

namespace BinaryHeap

def new : BinaryHeap α := ⟨#[], fun _ _ hs => absurd hs (by simp)⟩

def len (h : BinaryHeap α) : Nat := h.data.size

def isEmpty (h : BinaryHeap α) : Bool := h.len == 0

/-- The elements in the heap's internal order, which is not the sorted one. -/
def iter (h : BinaryHeap α) : List α := h.data.toList

/-- What the heap holds, with no order. -/
def items (h : BinaryHeap α) : Multiset α := h.iter

def peek (h : BinaryHeap α) : Option α := h.data[0]?

theorem push_hole (h : BinaryHeap α) (x : α) : UpHole (h.data.push x) h.data.size := by
  refine ⟨⟨?_, ?_⟩, ?_⟩
  · intro i hi hne hnp hs
    simp only [Array.size_push] at hs
    have hlt : i < h.data.size := by omega
    have hlt' : (i - 1) / 2 < h.data.size := by omega
    simpa only [Array.getElem_push, hlt, hlt', ↓reduceDIte] using h.ordered i hi hlt
  · intro _ i hs hi hp
    simp only [Array.size_push] at hs
    omega
  · intro i hi hp hs
    simp only [Array.size_push] at hs
    omega

def push (h : BinaryHeap α) (x : α) : BinaryHeap α :=
  ⟨siftUp (h.data.push x) h.data.size, siftUp_ordered _ _ (h.push_hole x)⟩

theorem pop_hole (h : BinaryHeap α) (x : α) (h0 : 0 < h.data.pop.size) :
    Hole (h.data.pop.set 0 x h0) 0 := by
  refine ⟨?_, fun hp => absurd hp (Nat.lt_irrefl 0)⟩
  intro i hi hne hnp hs
  simp only [Array.size_set, Array.size_pop] at hs
  have hne' : ¬ 0 = i := by omega
  have hnp' : ¬ 0 = (i - 1) / 2 := by omega
  simpa only [Array.getElem_set, hne', hnp', ↓reduceIte, Array.getElem_pop] using
    h.ordered i hi (by omega)

/-- Take the root out, put the last element in its place and sift it down. -/
def pop (h : BinaryHeap α) : Option α × BinaryHeap α :=
  match h.data.back? with
  | none => (none, h)
  | some item =>
    if h0 : 0 < h.data.pop.size then
      (some h.data.pop[0], ⟨siftDownToBottom (h.data.pop.set 0 item h0) 0,
        siftDownToBottom_ordered _ _ (by simpa using h0) (h.pop_hole item h0)⟩)
    else (some item, new)

@[simp] theorem items_new : (new : BinaryHeap α).items = 0 := rfl

@[simp] theorem card_items (h : BinaryHeap α) : h.items.card = h.len := by
  simp [items, iter, len]

@[simp] theorem mem_iter {h : BinaryHeap α} {x : α} : x ∈ h.iter ↔ x ∈ h.items := by
  simp [items]

@[simp] theorem items_push (h : BinaryHeap α) (x : α) : (h.push x).items = x ::ₘ h.items := by
  have hp : ((h.push x).data.toList).Perm (h.data.toList ++ [x]) := by
    have := (siftUp_perm (h.data.push x) h.data.size).toList
    simpa only [push, Array.toList_push] using this
  exact Multiset.coe_eq_coe.mpr (hp.trans List.perm_append_comm)

theorem isEmpty_iff {h : BinaryHeap α} : h.isEmpty = true ↔ h.items = 0 := by
  rw [← Multiset.card_eq_zero, card_items, isEmpty, beq_iff_eq]

theorem peek_none {h : BinaryHeap α} : h.peek = none ↔ h.items = 0 := by
  rw [← Multiset.card_eq_zero, card_items, peek, len]
  simp

theorem peek_mem {h : BinaryHeap α} {x : α} (hp : h.peek = some x) : x ∈ h.items := by
  obtain ⟨h0, hx⟩ := Array.getElem?_eq_some_iff.mp hp
  simp only [items, iter, Multiset.mem_coe, Array.mem_toList_iff]
  exact hx ▸ Array.getElem_mem h0

/-- Nothing in the heap is greater than what `peek` answers. -/
theorem peek_max {h : BinaryHeap α} {x : α} (hp : h.peek = some x) :
    ∀ y ∈ h.items, le y x = true := by
  intro y hy
  obtain ⟨h0, hx⟩ := Array.getElem?_eq_some_iff.mp hp
  simp only [items, iter, Multiset.mem_coe, Array.mem_toList_iff] at hy
  obtain ⟨i, hi, rfl⟩ := Array.mem_iff_getElem.mp hy
  exact hx ▸ h.ordered.root i hi

@[simp] theorem pop_fst (h : BinaryHeap α) : h.pop.1 = h.peek := by
  unfold pop peek
  split
  · rename_i hb
    have : h.data = #[] := by simpa using hb
    simp [this]
  · rename_i item hb
    rw [Array.back?_eq_getElem?] at hb
    obtain ⟨hlt, hx⟩ := Array.getElem?_eq_some_iff.mp hb
    split
    · rename_i h0
      simp only [Array.size_pop] at h0
      simp only [Array.getElem_pop]
      exact (Array.getElem?_eq_getElem (by omega)).symm
    · rename_i h0
      simp only [Array.size_pop] at h0
      have hs : h.data.size - 1 = 0 := by omega
      simp only [hs] at hx
      exact (Array.getElem?_eq_some_iff.mpr ⟨by omega, hx⟩).symm

/-- `pop` takes out exactly the element `peek` shows. -/
theorem items_pop {h : BinaryHeap α} {x : α} (hp : h.peek = some x) :
    h.items = x ::ₘ h.pop.2.items := by
  have hpush : ∀ item, h.data.back? = some item → h.data = h.data.pop.push item := by
    intro item hb
    obtain ⟨ys, hy⟩ := Array.back?_eq_some_iff.mp hb
    simp [hy]
  have hfst := h.pop_fst.trans hp
  cases hb : h.data.back? with
  | none => simp [pop, hb] at hfst
  | some item =>
    by_cases h0 : 0 < h.data.pop.size
    · simp only [pop, hb, h0, ↓reduceDIte, Option.some.injEq] at hfst ⊢
      have hperm := (siftDownToBottom_perm (h.data.pop.set 0 item h0) 0).toList
      obtain ⟨y, ys, hl⟩ : ∃ y ys, h.data.pop.toList = y :: ys :=
        List.exists_cons_of_length_pos (by simpa using h0)
      have hget : h.data.pop[0] = y := by
        simp only [← Array.getElem_toList, hl, List.getElem_cons_zero]
      have hx : x = y := hfst.symm.trans hget
      have hrest : (h.data.pop.set 0 item h0).toList = item :: ys := by
        rw [Array.toList_set, hl, List.set_cons_zero]
      have hall : h.data.toList = y :: (ys ++ [item]) := by
        rw [hpush item hb, Array.toList_push, hl, List.cons_append]
      rw [items, items, iter, iter, Multiset.coe_eq_coe.mpr hperm, hrest, hall, hx]
      exact Multiset.coe_eq_coe.mpr (List.perm_append_comm.cons y)
    · simp only [pop, hb, h0, ↓reduceDIte, Option.some.injEq] at hfst ⊢
      have hnil : h.data.pop = #[] := Array.eq_empty_of_size_eq_zero (by omega)
      rw [items, iter, hpush item hb, hnil, hfst]
      rfl

theorem pop_none {h : BinaryHeap α} (hp : h.peek = none) : h.pop.2 = h := by
  have hb : h.data.back? = none := by
    rw [peek_none, ← Multiset.card_eq_zero, card_items] at hp
    simpa [len] using hp
  simp [pop, hb]

end BinaryHeap

section Map

variable {β : Type} [HeapOrd β]

omit [HeapOrd α] [HeapOrd β] in
theorem map_swap (f : α → β) (a : Array α) (i j : Nat) (hi : i < (a.map f).size)
    (hj : j < (a.map f).size) :
    (a.map f).swap i j hi hj =
      (a.swap i j (by simpa using hi) (by simpa using hj)).map f := by
  simp [Array.swap_def]

theorem siftUp_map {f : α → β} (hf : ∀ x y, le (f x) (f y) = le x y) (a : Array α) (pos : Nat) :
    siftUp (a.map f) pos = (siftUp a pos).map f := by
  induction a, pos using siftUp.induct with
  | case1 a pos hin hle =>
    rw [siftUp, siftUp]
    simp [hin, hf, hle]
  | case2 a pos hin hle ih =>
    rw [siftUp, siftUp]
    simp [hin, hf, hle, map_swap, ih]
  | case3 a pos hout =>
    rw [siftUp, siftUp]
    simp [hout]

theorem siftDownToBottom_map {f : α → β} (hf : ∀ x y, le (f x) (f y) = le x y) (a : Array α)
    (pos : Nat) : siftDownToBottom (a.map f) pos = (siftDownToBottom a pos).map f := by
  induction a, pos using siftDownToBottom.induct with
  | case1 a pos hin hle ih =>
    rw [siftDownToBottom, siftDownToBottom]
    simp [hin, hf, hle, map_swap, ih]
  | case2 a pos hin hle ih =>
    rw [siftDownToBottom, siftDownToBottom]
    simp [hin, hf, hle, map_swap, ih]
  | case3 a pos hout hin =>
    rw [siftDownToBottom, siftDownToBottom]
    simp [hin, hout, map_swap, siftUp_map hf]
  | case4 a pos hout hin =>
    rw [siftDownToBottom, siftDownToBottom]
    simp [hin, hout, siftUp_map hf]

namespace BinaryHeap

/-- The heap of the images, under a map that keeps the order. -/
def map (f : α → β) (hf : ∀ x y, le (f x) (f y) = le x y) (h : BinaryHeap α) : BinaryHeap β where
  data := h.data.map f
  ordered := by
    intro i hi hs
    rw [Array.size_map] at hs
    rw [Array.getElem_map, Array.getElem_map, hf]
    exact h.ordered i hi hs

variable {f : α → β} (hf : ∀ x y, le (f x) (f y) = le x y)

omit [HeapOrd β] in
theorem ext {h h' : BinaryHeap α} (hd : h.data = h'.data) : h = h' := by
  cases h
  cases h'
  cases hd
  rfl

theorem map_new : (new : BinaryHeap α).map f hf = new := ext Array.map_empty

theorem map_push (h : BinaryHeap α) (x : α) : (h.map f hf).push (f x) = (h.push x).map f hf := by
  apply ext
  change siftUp ((h.data.map f).push (f x)) (h.data.map f).size = _
  rw [← Array.map_push, Array.size_map, siftUp_map hf]
  rfl

theorem map_peek (h : BinaryHeap α) : (h.map f hf).peek = h.peek.map f := Array.getElem?_map

theorem map_len (h : BinaryHeap α) : (h.map f hf).len = h.len := Array.size_map

theorem map_iter (h : BinaryHeap α) : (h.map f hf).iter = h.iter.map f := Array.toList_map

theorem map_pop (h : BinaryHeap α) :
    (h.map f hf).pop = (h.pop.1.map f, h.pop.2.map f hf) := by
  have hback : (h.map f hf).data.back? = h.data.back?.map f := Array.back?_map
  have hsize : (h.map f hf).data.pop.size = h.data.pop.size := by simp [map]
  unfold pop
  rw [hback]
  cases h.data.back? with
  | none => rfl
  | some item =>
    dsimp only [Option.map_some]
    by_cases h0 : 0 < h.data.pop.size
    · have h0' : 0 < (h.map f hf).data.pop.size := hsize.symm ▸ h0
      have hset : (h.map f hf).data.pop.set 0 (f item) h0' = (h.data.pop.set 0 item h0).map f := by
        simp [map]
      rw [dif_pos h0, dif_pos h0']
      refine Prod.ext ?_ (ext ?_)
      · simp [map]
      · exact (congrArg (siftDownToBottom · 0) hset).trans (siftDownToBottom_map hf _ 0)
    · rw [dif_neg h0, dif_neg (hsize.symm ▸ h0)]
      exact Prod.ext rfl (ext (by simp [map, new]))

end BinaryHeap

end Map

end Maybenot.Lib

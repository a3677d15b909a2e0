import Mathlib.Data.Multiset.Lattice
import Maybenot.Sim.Loop

namespace Maybenot
open Lib

theorem unwrap_ok {x : Option α} {a : α} : unwrap x = .ok a ↔ x = some a := by
  cases x <;> simp [unwrap]

@[simp] theorem notAfter_iff {t t' : Instant} {e e' : TriggerEvent} :
    notAfter t e t' e' = true ↔ t < t' ∨ t = t' ∧ eventToUsize e ≤ eventToUsize e' := by
  simp [notAfter]

theorem notAfter_time {t t' : Instant} {e e' : TriggerEvent} (h : notAfter t e t' e' = true) :
    t ≤ t' := by
  rw [notAfter_iff] at h
  lia

theorem not_notAfter_time {t t' : Instant} {e e' : TriggerEvent}
    (h : ¬ notAfter t e t' e' = true) : t' ≤ t := by
  rw [notAfter_iff] at h
  lia

theorem le_eq (a b : SimEvent) : HeapOrd.le a b = notAfter b.time b.event a.time a.event := rfl

/-- The head of a heap is not later than any of its events. -/
theorem peek_time {h : BinaryHeap SimEvent} {e : SimEvent} (hp : h.peek = some e) :
    ∀ y ∈ h.items, e.time ≤ y.time :=
  fun y hy => notAfter_time (BinaryHeap.peek_max hp y hy)

/-- The heap an event is pushed to. -/
def SimEvent.home (e : SimEvent) : Queue :=
  match e.event with
  | .tunnelSent => if e.bypass then .bypassable else .blocking
  | .normalSent => .base
  | _ => .internal

/-- The event as it comes out of its heap: the network delay moves base events. -/
def SimEvent.moved (e : SimEvent) (k : Queue) (delay : Duration) : SimEvent :=
  if k = .base then { e with time := e.time + delay } else e

namespace EventQueue

theorem home_blocking {e : SimEvent} (h : e.home = .blocking) :
    e.event = .tunnelSent ∧ e.bypass = false := by
  unfold SimEvent.home at h
  split at h
  · rename_i he
    split at h
    · exact absurd h (by simp)
    · rename_i hb
      exact ⟨he, by simpa using hb⟩
  · exact absurd h (by simp)
  · exact absurd h (by simp)

theorem home_bypassable {e : SimEvent} (h : e.home = .bypassable) :
    e.event = .tunnelSent ∧ e.bypass = true := by
  unfold SimEvent.home at h
  split at h
  · rename_i he
    split at h
    · rename_i hb
      exact ⟨he, hb⟩
    · exact absurd h (by simp)
  · exact absurd h (by simp)
  · exact absurd h (by simp)

theorem home_base {e : SimEvent} (h : e.home = .base) : e.event = .normalSent := by
  unfold SimEvent.home at h
  split at h
  · split at h <;> exact absurd h (by simp)
  · assumption
  · exact absurd h (by simp)

theorem home_internal {e : SimEvent} (h : e.home = .internal) :
    e.event ≠ .tunnelSent ∧ e.event ≠ .normalSent := by
  unfold SimEvent.home at h
  split at h
  · split at h <;> exact absurd h (by simp)
  · exact absurd h (by simp)
  · rename_i h1 h2
    exact ⟨h1, h2⟩

def WellFormed (q : EventQueue) : Prop := ∀ k, ∀ e ∈ (q.heap k).items, e.home = k

/-- Set the heap of a queue with its name. -/
def setHeap (q : EventQueue) (k : Queue) (h : BinaryHeap SimEvent) : EventQueue :=
  match k with
  | .blocking => { q with blocking := h }
  | .bypassable => { q with bypassable := h }
  | .internal => { q with internal := h }
  | .base => { q with base := h }

theorem heap_setHeap (q : EventQueue) (k j : Queue) (h : BinaryHeap SimEvent) :
    (q.setHeap k h).heap j = if j = k then h else q.heap j := by
  cases k <;> cases j <;> rfl

theorem push_eq (q : EventQueue) (e : SimEvent) :
    q.push e = q.setHeap e.home ((q.heap e.home).push e) := by
  obtain ⟨event, time, delay, client, padding, bypass, replace⟩ := e
  cases event with
  | tunnelSent => cases bypass <;> rfl
  | _ => rfl

theorem heap_push (q : EventQueue) (e : SimEvent) (k : Queue) :
    (q.push e).heap k = if k = e.home then (q.heap k).push e else q.heap k := by
  rw [push_eq, heap_setHeap]
  split
  · rename_i hk
    rw [hk]
  · rfl

/-- What comes out of a heap is its head, moved if it is the base heap. -/
theorem pop_ok {q q' : EventQueue} {k : Queue} {delay : Duration} {e : Option SimEvent}
    (h : q.pop k delay = .ok (e, q')) :
    e = (q.heap k).peek.map (·.moved k delay) ∧ q' = q.setHeap k (q.heap k).pop.2 := by
  cases k with
  | base =>
    simp only [pop] at h
    split at h
    · rename_i hd
      obtain ⟨rfl, rfl⟩ := Prod.mk.inj (pure_ok.mp h)
      refine ⟨?_, rfl⟩
      simp only [BinaryHeap.pop_fst, heap]
      cases q.base.peek with
      | none => rfl
      | some e => simp [SimEvent.moved, hd]
    · simp only [bind_ok, unwrap_ok, BinaryHeap.pop_fst] at h
      obtain ⟨item, hp, h⟩ := h
      obtain ⟨rfl, rfl⟩ := Prod.mk.inj (pure_ok.mp h)
      exact ⟨by simp [heap, hp, SimEvent.moved], rfl⟩
  | blocking | bypassable | internal =>
    obtain ⟨rfl, rfl⟩ := Prod.mk.inj (pure_ok.mp h)
    refine ⟨?_, rfl⟩
    simp only [BinaryHeap.pop_fst, heap, SimEvent.moved, reduceCtorEq, if_false, Option.map_id']

/-- A heap with a head can be popped. -/
theorem pop_of {q : EventQueue} {k : Queue} {e : SimEvent} (delay : Duration)
    (h : (q.heap k).peek = some e) :
    q.pop k delay = .ok (some (e.moved k delay), q.setHeap k (q.heap k).pop.2) := by
  cases k with
  | base =>
    simp only [heap] at h
    simp only [pop, BinaryHeap.pop_fst, h]
    split
    · rename_i hd
      simp [SimEvent.moved, hd]
      rfl
    · rfl
  | blocking | bypassable | internal =>
    simp only [heap] at h
    simp only [pop, BinaryHeap.pop_fst, h]
    rfl

/-- Popping a heap brings nothing. -/
theorem items_pop_le (h : BinaryHeap SimEvent) : h.pop.2.items ≤ h.items := by
  cases hp : h.peek with
  | none => rw [BinaryHeap.pop_none hp]
  | some x =>
    rw [BinaryHeap.items_pop hp]
    exact Multiset.le_cons_self _ x

end EventQueue

namespace SimQueue

/-- Every event is on its side and in its heap. -/
def WellFormed (sq : SimQueue) : Prop :=
  ∀ c k, ∀ e ∈ ((sq.side c).heap k).items, e.home = k ∧ e.client = c

theorem side_setSide (sq : SimQueue) (c c' : Bool) (q : EventQueue) :
    (sq.setSide c q).side c' = if c' = c then q else sq.side c' := by
  cases c <;> cases c' <;> rfl

theorem side_pushSim (sq : SimQueue) (e : SimEvent) (c : Bool) :
    (sq.pushSim e).side c = if c = e.client then (sq.side c).push e else sq.side c := by
  rw [pushSim, side_setSide]
  split
  · rename_i hc
    rw [hc]
  · rfl

/-- Pushing changes one heap. -/
theorem heap_pushSim (sq : SimQueue) (e : SimEvent) (c : Bool) (k : Queue) :
    ((sq.pushSim e).side c).heap k =
      if c = e.client ∧ k = e.home then ((sq.side c).heap k).push e else (sq.side c).heap k := by
  rw [side_pushSim]
  by_cases hc : c = e.client
  · rw [if_pos hc, EventQueue.heap_push]
    simp only [hc, true_and]
  · rw [if_neg hc, if_neg fun h => hc h.1]

theorem mem_pushSim {sq : SimQueue} {e y : SimEvent} {c : Bool} {k : Queue} :
    y ∈ (((sq.pushSim e).side c).heap k).items ↔
      (y = e ∧ c = e.client ∧ k = e.home) ∨ y ∈ ((sq.side c).heap k).items := by
  rw [heap_pushSim]
  split
  · rename_i hhere
    simp [hhere]
  · rename_i hother
    simp [hother]

theorem mem_foldl_pushSim {es : List SimEvent} {sq : SimQueue} {y : SimEvent} {c : Bool}
    {k : Queue} : y ∈ (((es.foldl SimQueue.pushSim sq).side c).heap k).items ↔
      (y ∈ es ∧ c = y.client ∧ k = y.home) ∨ y ∈ ((sq.side c).heap k).items := by
  induction es generalizing sq with
  | nil => simp
  | cons e es ih =>
    rw [List.foldl_cons, ih, mem_pushSim, List.mem_cons]
    constructor
    · rintro (⟨hy, h⟩ | ⟨rfl, h⟩ | h)
      · exact .inl ⟨.inr hy, h⟩
      · exact .inl ⟨.inl rfl, h⟩
      · exact .inr h
    · rintro (⟨rfl | hy, h⟩ | h)
      · exact .inr (.inl ⟨rfl, h⟩)
      · exact .inl ⟨hy, h⟩
      · exact .inr (.inr h)

theorem WellFormed.pushSim {sq : SimQueue} (h : sq.WellFormed) (e : SimEvent) :
    (sq.pushSim e).WellFormed := by
  intro c k y hy
  rcases mem_pushSim.mp hy with ⟨rfl, rfl, rfl⟩ | hy
  · exact ⟨rfl, rfl⟩
  · exact h c k y hy

/-- The queue after the head of a heap is gone. -/
def popped (sq : SimQueue) (k : Queue) (c : Bool) : SimQueue :=
  sq.setSide c ((sq.side c).setHeap k ((sq.side c).heap k).pop.2)

theorem pop_ok {sq sq' : SimQueue} {k : Queue} {c : Bool} {delay : Duration}
    {e : Option SimEvent} (h : sq.pop k c delay = .ok (e, sq')) :
    e = ((sq.side c).heap k).peek.map (·.moved k delay) ∧ sq' = sq.popped k c := by
  simp only [pop, bind_ok] at h
  obtain ⟨⟨e', q⟩, hq, h⟩ := h
  obtain ⟨rfl, rfl⟩ := EventQueue.pop_ok hq
  obtain ⟨rfl, rfl⟩ := Prod.mk.inj (pure_ok.mp h)
  exact ⟨rfl, rfl⟩

theorem pop_of {sq : SimQueue} {k : Queue} {c : Bool} {e : SimEvent} (delay : Duration)
    (h : ((sq.side c).heap k).peek = some e) :
    sq.pop k c delay = .ok (some (e.moved k delay), sq.popped k c) :=
  bind_eq (EventQueue.pop_of delay h)

/-- Popping changes one heap. -/
theorem heap_popped (sq : SimQueue) (k j : Queue) (c c' : Bool) :
    ((sq.popped k c).side c').heap j =
      if c' = c ∧ j = k then ((sq.side c').heap j).pop.2 else (sq.side c').heap j := by
  rw [popped, side_setSide]
  by_cases hc : c' = c
  · subst hc
    rw [if_pos rfl, EventQueue.heap_setHeap]
    by_cases hj : j = k
    · subst hj
      rw [if_pos rfl, if_pos ⟨rfl, rfl⟩]
    · rw [if_neg hj, if_neg fun h => hj h.2]
  · rw [if_neg hc, if_neg fun h => hc h.1]

theorem items_popped_le (sq : SimQueue) (k j : Queue) (c c' : Bool) :
    (((sq.popped k c).side c').heap j).items ≤ ((sq.side c').heap j).items := by
  rw [heap_popped]
  split
  · exact EventQueue.items_pop_le _
  · exact le_refl _

theorem mem_popped {sq : SimQueue} {k j : Queue} {c c' : Bool} {e : SimEvent}
    (he : e ∈ (((sq.popped k c).side c').heap j).items) : e ∈ ((sq.side c').heap j).items :=
  Multiset.mem_of_le (sq.items_popped_le k j c c') he

theorem WellFormed.popped {sq : SimQueue} (h : sq.WellFormed) (k : Queue) (c : Bool) :
    (sq.popped k c).WellFormed :=
  fun c' j e he => h c' j e (mem_popped he)

/-- The queues that pushing and popping make. -/
inductive Built : SimQueue → Prop
  | new (maxPps : Option Nat) : Built ⟨.new, .new, maxPps⟩
  | push {sq : SimQueue} (e : SimEvent) : Built sq → Built (sq.pushSim e)
  | pop {sq sq' : SimQueue} {k : Queue} {c : Bool} {delay : Duration} {e : Option SimEvent} :
    Built sq → sq.pop k c delay = .ok (e, sq') → Built sq'

theorem Built.wellFormed {sq : SimQueue} (h : Built sq) : sq.WellFormed := by
  induction h with
  | new maxPps =>
    intro c k e he
    cases c <;> cases k <;> simp [side, EventQueue.heap, EventQueue.new] at he
  | push e _ ih => exact ih.pushSim e
  | pop _ hpop ih => exact (pop_ok hpop).2 ▸ ih.popped _ _

end SimQueue

end Maybenot

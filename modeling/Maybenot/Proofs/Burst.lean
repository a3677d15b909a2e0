import Maybenot.Proofs.Peek
import Mathlib.Order.Bounds.Basic

namespace Maybenot
open Lib

variable {R G : Type}

theorem within_iff {window : Duration} {start t : Instant} :
    within window start t = true ↔ t ≤ start + window := by
  rw [within, decide_eq_true_eq, Instant.durationSince]
  lia

theorem durationSince_injective {t a b : Instant} (ha : a ≤ t) (hab : a < b)
    (h : Instant.durationSince t a = Instant.durationSince t b) : t = a := by
  unfold Instant.durationSince at h
  lia

namespace EventQueue

/-- What a blocking may hold back. -/
def buffered (q : EventQueue) : Multiset SimEvent := q.blocking.items + q.bypassable.items

theorem mem_buffered {q : EventQueue} {e : SimEvent} :
    e ∈ q.buffered ↔ e ∈ q.blocking.iter ++ q.bypassable.iter := by
  simp [buffered]

theorem card_buffered (q : EventQueue) :
    q.buffered.card = q.blocking.len + q.bypassable.len := by
  rw [buffered, Multiset.card_add, BinaryHeap.card_items, BinaryHeap.card_items]

/-- The next base event comes at most a millisecond after `t`. -/
def baseNear (q : EventQueue) (delay : Duration) (t : Instant) : Bool :=
  q.base.peek.any fun base => decide (base.time + delay ≤ t + Duration.fromMillis 1)

theorem baseNear_eq (q : EventQueue) (delay : Duration) (t : Instant) :
    q.base.peek.any (fun base => within (Duration.fromMillis 1) t (base.time + delay)) =
      q.baseNear delay t := by
  unfold baseNear
  congr 1
  funext base
  rw [Bool.eq_iff_iff, within_iff, decide_eq_true_eq]

theorem any_within (q : EventQueue) (window : Duration) (t : Instant) :
    (q.blocking.iter ++ q.bypassable.iter).any (fun y => within window t y.time) = true ↔
      ¬ ∀ y ∈ q.buffered, t + window < y.time := by
  rw [List.any_eq_true]
  simp only [within_iff, mem_buffered, not_forall, not_lt, exists_prop]

/-- The times of the buffered packets that come at most a millisecond after the head. -/
def burst (q : EventQueue) (head : Instant) : Set Instant :=
  {t | ∃ e ∈ q.buffered, e.time = t ∧ t ≤ head + Duration.fromMillis 1}

/-- The delay from the tail of a burst on. -/
def delayFromTail (q : EventQueue) (head tail expireTime : Instant) (delay : Duration) :
    Option Duration :=
  if expireTime = tail then none
  else if q.baseNear delay head then none
  else some (Instant.durationSince expireTime tail)

end EventQueue

section Burst

/-- The search for the tail with `tail` as the last time so far. -/
def tailFrom (window : Duration) (head tail : Instant) (events : List SimEvent) : Instant :=
  events.foldl (fun tail e => if within window head e.time && decide (e.time > tail) then e.time
    else tail) tail

theorem tailFrom_cons (window : Duration) (head tail : Instant) (x : SimEvent)
    (xs : List SimEvent) : tailFrom window head tail (x :: xs) =
      tailFrom window head (if x.time ≤ head + window then max x.time tail else tail) xs := by
  rw [tailFrom, List.foldl_cons, tailFrom]
  congr 1
  simp only [Bool.and_eq_true, within_iff, decide_eq_true_eq]
  split <;> split <;> lia

/-- The search for the tail ends at the last of the times it may choose from. -/
theorem tailFrom_greatest (window : Duration) (head tail : Instant) (events : List SimEvent) :
    IsGreatest {t | t = tail ∨ ∃ e ∈ events, e.time = t ∧ t ≤ head + window}
      (tailFrom window head tail events) := by
  induction events generalizing tail with
  | nil =>
    refine ⟨.inl rfl, ?_⟩
    intro t ht
    rcases ht with rfl | ⟨_, he, _⟩
    · exact le_refl _
    · exact absurd he List.not_mem_nil
  | cons x xs ih =>
    rw [tailFrom_cons]
    obtain ⟨hmem, hle⟩ := ih (if x.time ≤ head + window then max x.time tail else tail)
    have hstart := hle (.inl rfl)
    generalize tailFrom window head _ xs = last at hmem hle hstart
    constructor
    · rcases hmem with rfl | ⟨e, he, het⟩
      · by_cases hx : x.time ≤ head + window
        · rw [if_pos hx]
          rcases max_choice x.time tail with hm | hm
          · exact .inr ⟨x, List.mem_cons_self, hm.symm, hm.symm ▸ hx⟩
          · exact .inl hm
        · rw [if_neg hx]
          exact .inl rfl
      · exact .inr ⟨e, List.mem_cons_of_mem x he, het⟩
    · intro t ht
      rcases ht with rfl | ⟨e, he, rfl, hin⟩
      · refine le_trans ?_ hstart
        split
        · exact le_max_right _ _
        · exact le_refl _
      · rcases List.mem_cons.mp he with rfl | he
        · rw [if_pos hin] at hstart
          exact le_trans (le_max_left _ _) hstart
        · exact hle (.inr ⟨e, he, rfl, hin⟩)

/-- From the first packet on the search ends at the tail of the burst. -/
theorem burstTail_burst {q : EventQueue} {head : SimEvent} (hhead : head ∈ q.buffered) :
    IsGreatest (q.burst head.time) (burstTail (q.blocking.iter ++ q.bypassable.iter)
      (Duration.fromMillis 1) head.time) := by
  obtain ⟨hmem, hle⟩ := tailFrom_greatest (Duration.fromMillis 1) head.time head.time
    (q.blocking.iter ++ q.bypassable.iter)
  change IsGreatest _ (tailFrom _ _ _ _)
  constructor
  · rcases hmem with heq | ⟨e, he, het, hin⟩
    · exact ⟨head, hhead, heq.symm, by lia⟩
    · exact ⟨e, EventQueue.mem_buffered.mpr he, het, hin⟩
  · intro t ht
    obtain ⟨e, he, het, hin⟩ := ht
    exact hle (.inr ⟨e, EventQueue.mem_buffered.mp he, het, hin⟩)

/-- A burst of one packet ends at it. -/
theorem burst_single {q : EventQueue} {head : SimEvent} {tail : Instant}
    (hhead : head ∈ q.buffered) (hcard : q.buffered.card ≤ 1)
    (htail : IsGreatest (q.burst head.time) tail) : tail = head.time := by
  obtain ⟨e, he, rfl, _⟩ := htail.1
  have hone : q.buffered.card = 1 :=
    Nat.le_antisymm hcard (Multiset.card_pos_iff_exists_mem.mpr ⟨head, hhead⟩)
  obtain ⟨x, hx⟩ := Multiset.card_eq_one.mp hone
  rw [hx, Multiset.mem_singleton] at he hhead
  rw [he, hhead]

/-- The code takes the head for the tail unless more than two packets are buffered. -/
theorem aggDelayOnBlockingExpire_eq (sq : SimQueue) (c : Bool) (expireTime : Instant)
    (head : SimEvent) (delay : Duration) :
    aggDelayOnBlockingExpire sq c expireTime head delay =
      (sq.side c).delayFromTail head.time
        (if (sq.side c).buffered.card > 2 then
          burstTail ((sq.side c).blocking.iter ++ (sq.side c).bypassable.iter)
            (Duration.fromMillis 1) head.time
        else head.time) expireTime delay := by
  unfold aggDelayOnBlockingExpire EventQueue.delayFromTail
  rw [EventQueue.card_buffered]
  dsimp only
  congr 1
  rw [← EventQueue.baseNear_eq]
  cases (sq.side c).base.peek with
  | none => rfl
  | some base => rfl

/-- The delay measured from the head is the one measured from the tail only if the two are
at one time or the next base event is near. -/
theorem delayFromTail_head {q : EventQueue} {head tail expireTime : Instant} {delay : Duration}
    (hexpire : head ≤ expireTime) (htail : head ≤ tail) :
    q.delayFromTail head head expireTime delay = q.delayFromTail head tail expireTime delay ↔
      tail = head ∨ q.baseNear delay head = true := by
  constructor
  · intro heq
    by_contra hno
    obtain ⟨hne, hbase⟩ := not_or.mp hno
    have hlt : head < tail := lt_of_le_of_ne htail (Ne.symm hne)
    simp only [EventQueue.delayFromTail, if_neg hbase] at heq
    by_cases hhead : expireTime = head
    · rw [if_pos hhead, if_neg (by lia)] at heq
      exact absurd heq (by simp)
    · rw [if_neg hhead] at heq
      by_cases hend : expireTime = tail
      · rw [if_pos hend] at heq
        exact absurd heq (by simp)
      · rw [if_neg hend] at heq
        exact hhead (durationSince_injective hexpire hlt (Option.some.inj heq))
  · intro h
    rcases h with rfl | hbase
    · rfl
    · simp only [EventQueue.delayFromTail, if_pos hbase, ite_self]

/-- The delay is the one measured from the tail if not two packets are buffered, no packet
of the burst is later than the head, or the next base event is near; else it is not. -/
theorem aggDelayOnBlockingExpire_tail {sq : SimQueue} {c : Bool} {expireTime tail : Instant}
    {head : SimEvent} (delay : Duration) (hhead : head ∈ (sq.side c).buffered)
    (hfirst : ∀ e ∈ (sq.side c).buffered, head.time ≤ e.time) (hexpire : head.time ≤ expireTime)
    (htail : IsGreatest ((sq.side c).burst head.time) tail) :
    aggDelayOnBlockingExpire sq c expireTime head delay =
        (sq.side c).delayFromTail head.time tail expireTime delay ↔
      (sq.side c).buffered.card ≠ 2 ∨
        (∀ e ∈ (sq.side c).buffered, e.time ≤ head.time + Duration.fromMillis 1 →
          e.time = head.time) ∨
        (sq.side c).baseNear delay head.time = true := by
  have hburst : tail = head.time ↔ ∀ e ∈ (sq.side c).buffered,
      e.time ≤ head.time + Duration.fromMillis 1 → e.time = head.time := by
    constructor
    · intro heq e he hin
      exact le_antisymm (heq ▸ htail.2 ⟨e, he, rfl, hin⟩) (hfirst e he)
    · intro hall
      obtain ⟨e, he, rfl, hin⟩ := htail.1
      exact hall e he hin
  rw [aggDelayOnBlockingExpire_eq, (burstTail_burst hhead).unique htail]
  by_cases hmany : (sq.side c).buffered.card > 2
  · rw [if_pos hmany]
    exact iff_of_true rfl (.inl (by omega))
  · rw [if_neg hmany, delayFromTail_head hexpire (htail.2 ⟨head, hhead, rfl, by lia⟩), hburst]
    constructor
    · exact .inr
    · intro h
      rcases h with hcard | h
      · exact .inl (hburst.mp (burst_single hhead (by omega) htail))
      · exact h

/-- The delay of packets held until the expiry is measured from the tail of their burst,
except where two packets are all that is buffered. -/
theorem delay_from_tail {sq : SimQueue} {c : Bool} {expireTime : Instant} {head : SimEvent}
    (delay : Duration) (hhead : head ∈ (sq.side c).buffered)
    (hfirst : ∀ e ∈ (sq.side c).buffered, head.time ≤ e.time) (hexpire : head.time ≤ expireTime) :
    ∃ tail, IsGreatest ((sq.side c).burst head.time) tail ∧
      (aggDelayOnBlockingExpire sq c expireTime head delay =
          (sq.side c).delayFromTail head.time tail expireTime delay ↔
        (sq.side c).buffered.card ≠ 2 ∨
          (∀ e ∈ (sq.side c).buffered, e.time ≤ head.time + Duration.fromMillis 1 →
            e.time = head.time) ∨
          (sq.side c).baseNear delay head.time = true) :=
  ⟨_, burstTail_burst hhead,
    aggDelayOnBlockingExpire_tail delay hhead hfirst hexpire (burstTail_burst hhead)⟩

/-- A normal packet of the client that a blocking may hold. -/
def heldPacket (t : Instant) : SimEvent := ⟨.tunnelSent, t, 0, true, false, false, false⟩

/-- The client's blocking holds a packet for each of the times. -/
def heldAt (times : List Instant) : SimQueue :=
  (times.map heldPacket).foldl SimQueue.pushSim .new

/-- Of two packets half a millisecond apart the first is taken for the tail. -/
theorem two_packets_from_head :
    heldPacket 0 ∈ ((heldAt [0, 500000]).side true).buffered ∧
    (∀ e ∈ ((heldAt [0, 500000]).side true).buffered, (heldPacket 0).time ≤ e.time) ∧
    IsGreatest (((heldAt [0, 500000]).side true).burst (heldPacket 0).time) 500000 ∧
    aggDelayOnBlockingExpire (heldAt [0, 500000]) true 1000000 (heldPacket 0) 0 = some 1000000 ∧
    ((heldAt [0, 500000]).side true).delayFromTail (heldPacket 0).time 500000 1000000 0 =
      some 500000 := by
  refine ⟨by decide +kernel, by decide +kernel, ?_, by decide +kernel, by decide +kernel⟩
  constructor
  · exact ⟨heldPacket 500000, by decide +kernel, rfl, by decide⟩
  · intro t ht
    obtain ⟨e, he, rfl, _⟩ := ht
    have hall : ∀ e ∈ ((heldAt [0, 500000]).side true).buffered, e.time ≤ 500000 := by
      decide +kernel
    exact hall e he

/-- Of three packets it is the last. -/
theorem three_packets_from_tail :
    ∃ tail, IsGreatest (((heldAt [0, 200000, 500000]).side true).burst (heldPacket 0).time) tail ∧
      (aggDelayOnBlockingExpire (heldAt [0, 200000, 500000]) true 1000000 (heldPacket 0) 0 =
          ((heldAt [0, 200000, 500000]).side true).delayFromTail (heldPacket 0).time tail
            1000000 0 ↔
        ((heldAt [0, 200000, 500000]).side true).buffered.card ≠ 2 ∨
          (∀ e ∈ ((heldAt [0, 200000, 500000]).side true).buffered,
            e.time ≤ (heldPacket 0).time + Duration.fromMillis 1 → e.time = (heldPacket 0).time) ∨
          ((heldAt [0, 200000, 500000]).side true).baseNear 0 (heldPacket 0).time = true) :=
  delay_from_tail 0 (by decide +kernel) (by decide +kernel) (by decide)

/-- The first that blocking of any kind holds is the earliest of all that is buffered. -/
theorem peekBlocking_first {q : EventQueue} {e : SimEvent}
    (h : (peekBlocking q false).1 = some e) :
    e ∈ q.buffered ∧ ∀ y ∈ q.buffered, e.time ≤ y.time := by
  have hfirst : q.First 0 [.bypassable, .blocking] (peekBlocking q false) :=
    (EventQueue.First.single q 0 .bypassable).greater (EventQueue.First.single q 0 .blocking)
      (by simp) (by simp)
  have hle {k : Queue} (hk : k ∈ [Queue.bypassable, .blocking]) (hne : k ≠ .base) {y : SimEvent}
      (hy : y ∈ (q.heap k).items) : e.time ≤ y.time := by
    obtain ⟨x, hx, hxy⟩ := View.First.time_le hfirst hk hy
    obtain rfl := Option.some.inj (hx.symm.trans h)
    rw [y.moved_of_ne 0 hne] at hxy
    exact le_trans (le_moved_time x _ 0) hxy
  obtain ⟨hk, hpeek⟩ := hfirst.head e h
  constructor
  · have hmem := BinaryHeap.peek_mem hpeek
    generalize (peekBlocking q false).2 = k at hk hmem
    rcases List.mem_cons.mp hk with rfl | hk
    · exact Multiset.mem_add.mpr (.inr hmem)
    · obtain rfl := List.mem_singleton.mp hk
      exact Multiset.mem_add.mpr (.inl hmem)
  · intro y hy
    rcases Multiset.mem_add.mp hy with hy | hy
    · exact hle (k := .blocking) (by simp) (by simp) hy
    · exact hle (k := .bypassable) (by simp) (by simp) hy

/-- At the end of a blocking the delay from the tail of the burst is pushed, unless two
packets are all that is buffered. -/
theorem expiryDelay_tail {w : Sim R G} {c : Bool} {t : Instant} {head : SimEvent}
    (hhead : (peekBlocking (w.sq.side c) false).1 = some head) (ht : head.time < t)
    (hcard : (w.sq.side c).buffered.card ≠ 2) :
    ∃ tail, IsGreatest ((w.sq.side c).burst head.time) tail ∧
      w.expiryDelay c t = ((w.sq.side c).delayFromTail head.time tail t
        (w.network.aggregateBaseDelay c)).elim w.network
          fun d => w.network.pushAggregateDelay d t c := by
  obtain ⟨hmem, hfirst⟩ := peekBlocking_first hhead
  refine ⟨_, burstTail_burst hmem, ?_⟩
  rw [← (aggDelayOnBlockingExpire_tail _ hmem hfirst (le_of_lt ht)
    (burstTail_burst hmem)).mpr (.inl hcard)]
  unfold Sim.expiryDelay
  simp only [hhead, if_pos ht]
  cases aggDelayOnBlockingExpire w.sq c t head (w.network.aggregateBaseDelay c) with
  | none => rfl
  | some d => rfl

end Burst

end Maybenot

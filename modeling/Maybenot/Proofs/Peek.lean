import Maybenot.Proofs.Stop

namespace Maybenot
open Lib

/-- A test of two heads, which says that the first is later. -/
theorem greater_iff {a b : Option SimEvent} :
    greater a b = true ↔ ∃ x, a = some x ∧ ∀ y, b = some y → ¬ HeapOrd.le x y = true := by
  cases a <;> cases b <;> simp [greater]

theorem home_base_order {e : SimEvent} (h : e.home = .base) : eventToUsize e.event = 1 := by
  rw [EventQueue.home_base h]
  rfl

theorem home_bypassable_order {e : SimEvent} (h : e.home = .bypassable) :
    eventToUsize e.event = 0 := by
  rw [(EventQueue.home_bypassable h).1]
  rfl

theorem home_internal_order {e : SimEvent} (h : e.home = .internal) :
    2 ≤ eventToUsize e.event := by
  obtain ⟨h1, h2⟩ := EventQueue.home_internal h
  cases he : e.event <;> simp_all [eventToUsize]

@[simp] theorem SimEvent.moved_event (e : SimEvent) (k : Queue) (delay : Duration) :
    (e.moved k delay).event = e.event := by
  unfold SimEvent.moved
  split <;> rfl

theorem SimEvent.moved_time (e : SimEvent) (k : Queue) (delay : Duration) :
    (e.moved k delay).time = if k = .base then e.time + delay else e.time := by
  unfold SimEvent.moved
  split <;> rfl

theorem SimEvent.moved_of_ne (e : SimEvent) {k : Queue} (delay : Duration) (h : k ≠ .base) :
    e.moved k delay = e := by
  unfold SimEvent.moved
  rw [if_neg h]

theorem le_moved_time (e : SimEvent) (k : Queue) (delay : Duration) :
    e.time ≤ (e.moved k delay).time := by
  rw [SimEvent.moved_time]
  split <;> lia

namespace EventQueue

/-- The answer `r` is the first of all events in the heaps `ks`, the base events moved. -/
structure First (q : EventQueue) (delay : Duration) (ks : List Queue)
    (r : Option SimEvent × Queue) : Prop where
  head : ∀ e, r.1 = some e → r.2 ∈ ks ∧ (q.heap r.2).peek = some e
  first : ∀ k ∈ ks, ∀ y ∈ (q.heap k).items,
    ∃ e, r.1 = some e ∧ HeapOrd.le (y.moved k delay) (e.moved r.2 delay) = true

theorem le_moved {x y : SimEvent} (k : Queue) (delay : Duration) (h : HeapOrd.le y x = true) :
    HeapOrd.le (y.moved k delay) (x.moved k delay) = true := by
  unfold SimEvent.moved
  split
  · simp only [le_eq, notAfter_iff] at h ⊢
    lia
  · exact h

theorem First.single (q : EventQueue) (delay : Duration) (k : Queue) :
    First q delay [k] ((q.heap k).peek, k) where
  head e he := ⟨List.mem_singleton_self k, he⟩
  first j hj y hy := by
    obtain rfl := List.mem_singleton.mp hj
    cases hp : (q.heap j).peek with
    | none => exact absurd hy (by simp [BinaryHeap.peek_none.mp hp])
    | some e => exact ⟨e, rfl, le_moved j delay (BinaryHeap.peek_max hp y hy)⟩

/-- Of two answers the better one is first in the heaps of both. -/
theorem First.better {q : EventQueue} {delay : Duration} {ks js : List Queue}
    {r r' : Option SimEvent × Queue} (h : First q delay ks r) (h' : First q delay js r')
    {b : Bool} (htrue : b = true → ∃ x, r'.1 = some x ∧
      ∀ y, r.1 = some y → HeapOrd.le (y.moved r.2 delay) (x.moved r'.2 delay) = true)
    (hfalse : ¬ b = true → ∀ x, r'.1 = some x →
      ∃ y, r.1 = some y ∧ HeapOrd.le (x.moved r'.2 delay) (y.moved r.2 delay) = true) :
    First q delay (ks ++ js) (if b then r' else r) := by
  by_cases hb : b = true
  · rw [if_pos hb]
    obtain ⟨x, hx, hle⟩ := htrue hb
    refine ⟨fun e he => ?_, fun k hk y hy => ?_⟩
    · obtain ⟨hmem, hhead⟩ := h'.head e he
      exact ⟨List.mem_append_right _ hmem, hhead⟩
    · rcases List.mem_append.mp hk with hk | hk
      · obtain ⟨e, he, hye⟩ := h.first k hk y hy
        exact ⟨x, hx, HeapOrd.le_trans hye (hle e he)⟩
      · exact h'.first k hk y hy
  · rw [if_neg hb]
    refine ⟨fun e he => ?_, fun k hk y hy => ?_⟩
    · obtain ⟨hmem, hhead⟩ := h.head e he
      exact ⟨List.mem_append_left _ hmem, hhead⟩
    · rcases List.mem_append.mp hk with hk | hk
      · exact h.first k hk y hy
      · obtain ⟨x, hx, hyx⟩ := h'.first k hk y hy
        obtain ⟨e, he, hxe⟩ := hfalse hb x hx
        exact ⟨e, he, HeapOrd.le_trans hyx hxe⟩

theorem First.greater {q : EventQueue} {delay : Duration} {ks js : List Queue}
    {r r' : Option SimEvent × Queue} (h : First q delay ks r) (h' : First q delay js r')
    (hk : r.2 ≠ .base) (hj : r'.2 ≠ .base) :
    First q delay (ks ++ js) (if greater r'.1 r.1 then r' else r) := by
  refine h.better h' (fun hb => ?_) fun hb x hx => ?_
  · obtain ⟨x, hx, hle⟩ := greater_iff.mp hb
    refine ⟨x, hx, fun y hy => ?_⟩
    rw [y.moved_of_ne delay hk, x.moved_of_ne delay hj]
    exact HeapOrd.le_of_not_le (hle y hy)
  · have hle : ∃ y, r.1 = some y ∧ HeapOrd.le x y = true := by
      by_contra hno
      exact hb (greater_iff.mpr ⟨x, hx, fun y hy hle => hno ⟨y, hy, hle⟩⟩)
    obtain ⟨y, hy, hle⟩ := hle
    rw [x.moved_of_ne delay hj]
    exact ⟨y, hy, by rwa [y.moved_of_ne delay hk]⟩

theorem First.before {q : EventQueue} {delay : Duration} {ks : List Queue}
    {r : Option SimEvent × Queue} (h : First q delay ks r) (hk : r.2 ≠ .base) :
    First q delay (ks ++ [.base]) (if before q.base.peek r.1 delay then (q.base.peek, .base)
      else r) := by
  refine h.better (First.single q delay .base) (fun hb => ?_) fun hb x hx => ?_
  · cases hx : q.base.peek with
    | none => exact absurd hb (by simp [Maybenot.before, hx])
    | some x =>
      refine ⟨x, hx, fun y hy => ?_⟩
      rw [y.moved_of_ne delay hk]
      simpa [Maybenot.before, hx, hy, le_eq, SimEvent.moved_time] using hb
  · change q.base.peek = some x at hx
    cases hy : r.1 with
    | none => exact absurd (by simp [Maybenot.before, hx, hy]) hb
    | some y =>
      refine ⟨y, rfl, HeapOrd.le_of_not_le fun hle => hb ?_⟩
      rw [y.moved_of_ne delay hk] at hle
      simpa [Maybenot.before, hx, hy, le_eq, SimEvent.moved_time] using hle

theorem peekUnmoved_first (q : EventQueue) (delay : Duration) :
    First q delay [.bypassable, .blocking, .internal] q.peekUnmoved ∧
      q.peekUnmoved.2 ≠ .base := by
  have hne (b : Bool) (x : Option SimEvent × Queue) {k : Queue} (hx : x.2 ≠ .base)
      (o : Option SimEvent) (hk : k ≠ .base) : (if b then (o, k) else x).2 ≠ .base := by
    cases b
    · exact hx
    · exact hk
  have h1 := (First.single q delay .bypassable).greater (First.single q delay .blocking)
    (by simp) (by simp)
  have hne1 := hne (greater q.blocking.peek q.bypassable.peek) (q.bypassable.peek, .bypassable)
    (by simp) q.blocking.peek (k := .blocking) (by simp)
  have h2 := h1.greater (First.single q delay .internal) hne1 (by simp)
  exact ⟨h2, hne _ _ hne1 _ (by simp)⟩

theorem peekNonBlocking_first (q : EventQueue) (delay : Duration) :
    First q delay [.internal, .base] (q.peekNonBlocking delay) :=
  (First.single q delay .internal).before (by simp)

theorem len_eq_zero {q : EventQueue} : q.len = 0 ↔ ∀ k, (q.heap k).items = 0 := by
  have hcard (k : Queue) : (q.heap k).items = 0 ↔ (q.heap k).len = 0 := by
    rw [← BinaryHeap.card_items, Multiset.card_eq_zero]
  simp only [hcard, len]
  constructor
  · intro h k
    cases k <;> simp only [heap] <;> omega
  · intro h
    have h1 := h .blocking
    have h2 := h .bypassable
    have h3 := h .internal
    have h4 := h .base
    simp only [heap] at h1 h2 h3 h4
    omega

/-- An empty side has nothing to show, any other shows the first of its events. -/
theorem peek_spec (q : EventQueue) (delay : Duration) (cur : Instant) :
    (q.peek delay cur = .ok (none, .blocking, 0) ∧ ∀ k, (q.heap k).items = 0) ∨
    ∃ e k, q.peek delay cur =
        .ok (some e, k, Instant.durationSince (e.moved k delay).time cur) ∧
      First q delay [.bypassable, .blocking, .internal, .base] (some e, k) := by
  unfold peek
  by_cases hlen : q.len = 0
  · exact .inl ⟨if_pos hlen, len_eq_zero.mp hlen⟩
  · right
    rw [if_neg hlen]
    obtain ⟨hunmoved, hne⟩ := q.peekUnmoved_first delay
    have hfirst := hunmoved.before hne
    have hsome : ∃ k, ∃ y ∈ (q.heap k).items, k ∈ [Queue.bypassable, .blocking, .internal] ++
        [.base] := by
      by_contra hno
      refine hlen (len_eq_zero.mpr fun k => Multiset.eq_zero_of_forall_notMem fun y hy => ?_)
      exact hno ⟨k, y, hy, by cases k <;> simp⟩
    obtain ⟨k, y, hy, hk⟩ := hsome
    obtain ⟨e, he, _⟩ := hfirst.first k hk y hy
    dsimp only
    split
    · rename_i hb
      rw [if_pos hb] at he hfirst
      change q.base.peek = some e at he
      refine ⟨e, .base, ?_, by rwa [he] at hfirst⟩
      simp [he, unwrap, SimEvent.moved_time]
    · rename_i hb
      rw [if_neg hb] at he hfirst
      refine ⟨e, q.peekUnmoved.2, ?_, by rwa [← he]⟩
      simp [he, unwrap, SimEvent.moved_of_ne e delay hne]

end EventQueue

/-- What a search for the next event looks at. -/
structure View (R G : Type) where
  sq : SimQueue
  client : SimState R G
  server : SimState R G
  clientNetworkDelaySum : Duration
  serverNetworkDelaySum : Duration
  currentTime : Instant

namespace View

variable {R G : Type}

def side (v : View R G) (c : Bool) : SimState R G := if c then v.client else v.server

def delay (v : View R G) (c : Bool) : Duration :=
  if c then v.clientNetworkDelaySum else v.serverNetworkDelaySum

def peekQueue (v : View R G) (earliest : Wait) : Exec (Wait × Queue × Bool) :=
  Maybenot.peekQueue v.sq v.client v.server v.clientNetworkDelaySum v.serverNetworkDelaySum
    earliest v.currentTime

def items (v : View R G) (c : Bool) (k : Queue) : Multiset SimEvent := ((v.sq.side c).heap k).items

/-- The blocking of its side holds the event back. -/
def Held (v : View R G) (c : Bool) (e : SimEvent) : Prop :=
  e.event = .tunnelSent ∧ (v.side c).blockingUntil.isSome ∧
    ¬ ((v.side c).blockingBypassable ∧ e.bypass)

instance (v : View R G) (c : Bool) (e : SimEvent) : Decidable (v.Held c e) :=
  inferInstanceAs (Decidable (_ ∧ _ ∧ ¬ _))

/-- When an event of a heap can be released. -/
def release (v : View R G) (c : Bool) (k : Queue) (e : SimEvent) : Instant :=
  if k = .base then e.time + v.delay c
  else if v.Held c e then max e.time ((v.side c).blockingUntil.getD e.time)
  else e.time

def wait (v : View R G) (c : Bool) (k : Queue) (e : SimEvent) : Duration :=
  Instant.durationSince (v.release c k e) v.currentTime

/-- The waits of all events of a side. -/
def waits (v : View R G) (c : Bool) : Multiset Wait :=
  ((v.items c .blocking).map (v.wait c .blocking) + (v.items c .bypassable).map (v.wait c .bypassable) +
    (v.items c .internal).map (v.wait c .internal) + (v.items c .base).map (v.wait c .base)).map (↑)

/-- How long it is to the earliest release of an event, `⊤` if there is none. -/
def earliestWait (v : View R G) : Wait := (v.waits true + v.waits false).inf

/-- A search for what comes until `earliest` finds the earliest release. -/
def FindsEarliest (v : View R G) (earliest : Wait) : Prop :=
  v.earliestWait ≤ earliest → ∃ k c, v.peekQueue earliest = .ok (v.earliestWait, k, c)

/-- The first event of the queue, without a look at blocking, is held back. -/
def HeadHeld (v : View R G) : Prop :=
  ∃ e k d, v.sq.peek v.clientNetworkDelaySum v.serverNetworkDelaySum v.currentTime =
    .ok (some e, k, d) ∧ v.Held e.client e

/-- A packet that bypasses the blocking is after the first base event in its heap, but
before it once the network delay has moved it. -/
def Shadowed (v : View R G) (c : Bool) (k : Queue) (e : SimEvent) : Prop :=
  k = .bypassable ∧ (v.side c).blockingBypassable = true ∧
    ∃ h, (v.sq.side c).base.peek = some h ∧ h.time < e.time ∧ e.time < h.time + v.delay c ∧
      ∀ i ∈ (v.sq.side c).internal.items, h.time + v.delay c ≤ i.time

/-- The search does not see an event of the earliest release. -/
def Hidden (v : View R G) (earliest : Wait) : Prop :=
  v.earliestWait ≤ earliest ∧ v.HeadHeld ∧
    ∀ c k, ∀ e ∈ v.items c k, (v.wait c k e : Wait) = v.earliestWait → v.Shadowed c k e

/-- The least of some waits is one of them, if there are any. -/
theorem inf_mem (s : Multiset Wait) : s = 0 ∨ s.inf ∈ s := by
  induction s using Multiset.induction with
  | empty => exact .inl rfl
  | cons x s ih =>
    right
    rw [Multiset.inf_cons, Multiset.mem_cons]
    rcases min_choice x s.inf with h | h
    · exact .inl h
    · rcases ih with rfl | ih
      · simp
      · rw [show x ⊓ s.inf = s.inf from h]
        exact .inr ih

theorem mem_waits {v : View R G} {c : Bool} {x : Wait} :
    x ∈ v.waits c ↔ ∃ k, ∃ e ∈ v.items c k, (v.wait c k e : Wait) = x := by
  simp only [waits, Multiset.mem_map, Multiset.mem_add]
  constructor
  · rintro ⟨_, ((⟨e, he, rfl⟩ | ⟨e, he, rfl⟩) | ⟨e, he, rfl⟩) | ⟨e, he, rfl⟩, rfl⟩
    · exact ⟨_, e, he, rfl⟩
    · exact ⟨_, e, he, rfl⟩
    · exact ⟨_, e, he, rfl⟩
    · exact ⟨_, e, he, rfl⟩
  · rintro ⟨k, e, he, rfl⟩
    refine ⟨_, ?_, rfl⟩
    cases k with
    | blocking => exact .inl (.inl (.inl ⟨e, he, rfl⟩))
    | bypassable => exact .inl (.inl (.inr ⟨e, he, rfl⟩))
    | internal => exact .inl (.inr ⟨e, he, rfl⟩)
    | base => exact .inr ⟨e, he, rfl⟩

theorem earliestWait_le {v : View R G} {c : Bool} {k : Queue} {e : SimEvent}
    (he : e ∈ v.items c k) : v.earliestWait ≤ v.wait c k e := by
  refine Multiset.inf_le (Multiset.mem_add.mpr ?_)
  cases c with
  | true => exact .inl (mem_waits.mpr ⟨k, e, he, rfl⟩)
  | false => exact .inr (mem_waits.mpr ⟨k, e, he, rfl⟩)

theorem earliestWait_eq (v : View R G) :
    (∃ c k, ∃ e ∈ v.items c k, (v.wait c k e : Wait) = v.earliestWait) ∨
      v.earliestWait = ⊤ ∧ ∀ c k, v.items c k = 0 := by
  rcases inf_mem (v.waits true + v.waits false) with h0 | hmem
  · refine .inr ⟨by rw [earliestWait, h0, Multiset.inf_zero], fun c k => ?_⟩
    refine Multiset.eq_zero_of_forall_notMem fun e he => ?_
    have hx : (v.wait c k e : Wait) ∈ v.waits true + v.waits false := by
      rw [Multiset.mem_add]
      cases c with
      | true => exact .inl (mem_waits.mpr ⟨k, e, he, rfl⟩)
      | false => exact .inr (mem_waits.mpr ⟨k, e, he, rfl⟩)
    simp [h0] at hx
  · left
    rcases Multiset.mem_add.mp hmem with h | h
    · exact ⟨true, mem_waits.mp h⟩
    · exact ⟨false, mem_waits.mp h⟩

/-- A packet that no flag exempts waits for the end of the blocking, if there is one. -/
theorem wait_of_blocking {v : View R G} (h : v.sq.WellFormed) {c : Bool} {k : Queue}
    {e : SimEvent} (he : e ∈ v.items c k)
    (hk : k = .blocking ∨ k = .bypassable ∧ ¬ (v.side c).blockingBypassable = true) :
    v.wait c k e =
      Instant.durationSince (max e.time ((v.side c).blockingUntil.getD v.currentTime)) v.currentTime := by
  have hhome := (h c k e he).1
  have hevent : e.event = .tunnelSent ∧ ¬ ((v.side c).blockingBypassable = true ∧ e.bypass = true) := by
    rcases hk with rfl | ⟨rfl, hb⟩
    · obtain ⟨hev, hb⟩ := EventQueue.home_blocking hhome
      exact ⟨hev, by simp [hb]⟩
    · exact ⟨(EventQueue.home_bypassable hhome).1, fun hb' => hb hb'.1⟩
  have hne : k ≠ .base := by
    rcases hk with rfl | ⟨rfl, _⟩ <;> simp
  unfold wait release
  rw [if_neg hne]
  cases hu : (v.side c).blockingUntil with
  | none =>
    have hfree : ¬ v.Held c e := fun hheld => absurd hheld.2.1 (by simp [hu])
    rw [if_neg hfree]
    simp only [Instant.durationSince, Option.getD_none]
    lia
  | some u =>
    have hheld : v.Held c e := ⟨hevent.1, by simp [hu], hevent.2⟩
    rw [if_pos hheld]
    rfl

/-- All other events wait for their time only. -/
theorem wait_of_free {v : View R G} {c : Bool} {k : Queue} {e : SimEvent}
    (hfree : ¬ v.Held c e) :
    v.wait c k e = Instant.durationSince (e.moved k (v.delay c)).time v.currentTime := by
  unfold wait release
  rw [SimEvent.moved_time, if_neg hfree]

theorem not_held {v : View R G} (h : v.sq.WellFormed) {c : Bool} {k : Queue} {e : SimEvent}
    (he : e ∈ v.items c k) (hk : k = .internal ∨ k = .base ∨
      k = .bypassable ∧ (v.side c).blockingBypassable = true) : ¬ v.Held c e := by
  have hhome := (h c k e he).1
  rcases hk with rfl | rfl | ⟨rfl, hb⟩
  · exact fun hheld => (EventQueue.home_internal hhome).1 hheld.1
  · exact fun hheld => absurd (hheld.1.symm.trans (EventQueue.home_base hhome)) (by simp)
  · exact fun hheld => hheld.2.2 ⟨hb, (EventQueue.home_bypassable hhome).2⟩

/-- No event is released before its own time. -/
theorem moved_le_wait {v : View R G} (h : v.sq.WellFormed) {c : Bool} {k : Queue} {e : SimEvent}
    (he : e ∈ v.items c k) :
    Instant.durationSince (e.moved k (v.delay c)).time v.currentTime ≤ v.wait c k e := by
  by_cases hheld : v.Held c e
  · have hne : k ≠ .base := by
      rintro rfl
      exact not_held h he (.inr (.inl rfl)) hheld
    unfold wait release
    rw [if_neg hne, if_pos hheld, e.moved_of_ne _ hne]
    simp only [Instant.durationSince]
    lia
  · exact (wait_of_free hheld).ge

/-- The heaps whose events blocking does not hold back. -/
def Free (v : View R G) (c : Bool) (k : Queue) : Prop :=
  k = .internal ∨ k = .base ∨ k = .bypassable ∧ (v.side c).blockingBypassable = true

theorem First.time_le {q : EventQueue} {delay : Duration} {ks : List Queue}
    {r : Option SimEvent × Queue} (h : q.First delay ks r) {k : Queue} (hk : k ∈ ks)
    {y : SimEvent} (hy : y ∈ (q.heap k).items) :
    ∃ e, r.1 = some e ∧ (e.moved r.2 delay).time ≤ (y.moved k delay).time := by
  obtain ⟨e, he, hle⟩ := h.first k hk y hy
  exact ⟨e, he, notAfter_time hle⟩

theorem peekNonBlocking_first (v : View R G) (c : Bool) :
    (v.sq.side c).First (v.delay c) [.internal, .base]
      ((v.sq.side c).peekNonBlocking (v.delay c)) :=
  (v.sq.side c).peekNonBlocking_first (v.delay c)

/-- A packet that bypasses is only taken if it is not after the first base event. -/
theorem bypassable_not_shadowed {v : View R G} (h : v.sq.WellFormed) {c : Bool} {e : SimEvent}
    (hfirst : ∀ y, ((v.sq.side c).peekNonBlocking (v.delay c)).1 = some y →
      ¬ HeapOrd.le e y = true) : ¬ v.Shadowed c .bypassable e := by
  rintro ⟨_, _, x, hx, hxe, _, hint⟩
  have hbefore : before (v.sq.side c).base.peek (v.sq.side c).internal.peek (v.delay c) = true := by
    rw [hx]
    cases hi : (v.sq.side c).internal.peek with
    | none => rfl
    | some i =>
      have himem : i ∈ (v.sq.side c).internal.items := BinaryHeap.peek_mem hi
      have h2 := home_internal_order (h c .internal i himem).1
      have h1 := home_base_order (h c .base x (BinaryHeap.peek_mem hx)).1
      have hxi := hint i himem
      simp only [before, notAfter_iff]
      lia
  have hn0 : (v.sq.side c).peekNonBlocking (v.delay c) = (some x, .base) := by
    rw [EventQueue.peekNonBlocking, if_pos hbefore, hx]
  have hnot := hfirst x (by rw [hn0])
  simp only [le_eq, notAfter_iff] at hnot
  lia

/-- A packet that bypasses and is not shadowed is not before what is taken in its place. -/
theorem le_not_shadowed {v : View R G} (h : v.sq.WellFormed) {c : Bool}
    (hbp : (v.side c).blockingBypassable = true) {e bb y : SimEvent}
    (he : ((v.sq.side c).peekNonBlocking (v.delay c)).1 = some e)
    (hbb : (v.sq.side c).bypassable.peek = some bb) (hle : HeapOrd.le bb e = true)
    (hby : bb.time ≤ y.time) (hs : ¬ v.Shadowed c .bypassable y) :
    (e.moved ((v.sq.side c).peekNonBlocking (v.delay c)).2 (v.delay c)).time ≤ y.time := by
  have hfirst := v.peekNonBlocking_first c
  obtain ⟨hk, hhead⟩ := hfirst.head e he
  rcases List.mem_pair.mp hk with hk | hk
  · rw [hk, e.moved_of_ne _ (by simp)]
    exact (notAfter_time hle).trans hby
  · rw [hk] at hhead ⊢
    have h0 := home_bypassable_order
      (h c .bypassable bb (BinaryHeap.peek_mem (h := (v.sq.side c).bypassable) hbb)).1
    have h1 := home_base_order (h c .base e (BinaryHeap.peek_mem hhead)).1
    have hlt : e.time < y.time := by
      simp only [le_eq, notAfter_iff] at hle
      lia
    rw [SimEvent.moved_time, if_pos rfl]
    by_contra hlate
    refine hs ⟨rfl, hbp, e, hhead, hlt, by lia, fun i hi => ?_⟩
    obtain ⟨e1, he1, hle1⟩ := First.time_le hfirst (k := .internal) (by simp) hi
    obtain rfl : e = e1 := Option.some.inj (he.symm.trans he1)
    rw [hk, SimEvent.moved_time, if_pos rfl, i.moved_of_ne _ (by simp)] at hle1
    exact hle1

/-- The first event that blocking does not hold back, shadowed ones left out. -/
theorem peekNonBlocking_spec {v : View R G} (h : v.sq.WellFormed) (c : Bool)
    {n : Option SimEvent × Queue} (hn : n = Maybenot.peekNonBlocking (v.sq.side c)
      (v.side c).blockingBypassable (v.delay c)) :
    (∀ e, n.1 = some e → v.Free c n.2 ∧ ((v.sq.side c).heap n.2).peek = some e ∧
      ¬ v.Shadowed c n.2 e) ∧
    ∀ k, v.Free c k → ∀ y ∈ v.items c k, ¬ v.Shadowed c k y →
      ∃ e, n.1 = some e ∧ (e.moved n.2 (v.delay c)).time ≤ (y.moved k (v.delay c)).time := by
  have hfirst := v.peekNonBlocking_first c
  have hother {k : Queue} (hk : k = .internal ∨ k = .base) : k ∈ [Queue.internal, .base] := by
    rcases hk with rfl | rfl <;> simp
  have hbypass {y : SimEvent} (hy : y ∈ v.items c .bypassable) :
      ∃ bb, (v.sq.side c).bypassable.peek = some bb ∧ bb.time ≤ y.time := by
    cases hp : (v.sq.side c).bypassable.peek with
    | none => exact absurd hy (by simp [items, EventQueue.heap, BinaryHeap.peek_none.mp hp])
    | some bb => exact ⟨bb, rfl, peek_time hp y hy⟩
  by_cases hg : (v.side c).blockingBypassable = true ∧ greater (v.sq.side c).bypassable.peek
      ((v.sq.side c).peekNonBlocking (v.delay c)).1 = true
  · obtain ⟨hbp, hg⟩ := hg
    rw [Maybenot.peekNonBlocking, if_pos hbp, if_pos hg] at hn
    subst hn
    obtain ⟨bb, hbb, hle⟩ := greater_iff.mp hg
    refine ⟨fun e he => ?_, fun k hk y hy _ => ⟨bb, hbb, ?_⟩⟩
    · obtain rfl : bb = e := Option.some.inj (hbb.symm.trans he)
      exact ⟨.inr (.inr ⟨rfl, hbp⟩), hbb, bypassable_not_shadowed h hle⟩
    · have hold {k : Queue} (hk : k = .internal ∨ k = .base) (hy : y ∈ v.items c k) :
          bb.time ≤ (y.moved k (v.delay c)).time := by
        obtain ⟨e, he, hle0⟩ := First.time_le hfirst (hother hk) hy
        have hnot := HeapOrd.le_of_not_le (hle e he)
        exact ((notAfter_time hnot).trans (le_moved_time e _ _)).trans hle0
      dsimp only
      rw [bb.moved_of_ne _ (by simp)]
      rcases hk with hk | hk | ⟨rfl, _⟩
      · exact hold (.inl hk) hy
      · exact hold (.inr hk) hy
      · obtain ⟨bb', hbb', hle'⟩ := hbypass hy
        obtain rfl : bb = bb' := Option.some.inj (hbb.symm.trans hbb')
        exact hle'.trans (le_moved_time y _ _)
  · have hn : n = (v.sq.side c).peekNonBlocking (v.delay c) := by
      rw [hn, Maybenot.peekNonBlocking]
      by_cases hbp : (v.side c).blockingBypassable = true
      · rw [if_pos hbp, if_neg fun hg' => hg ⟨hbp, hg'⟩]
      · rw [if_neg hbp]
    subst hn
    refine ⟨fun e he => ?_, fun k hk y hy hs => ?_⟩
    · obtain ⟨hk, hhead⟩ := hfirst.head e he
      refine ⟨?_, hhead, fun hs => absurd (hs.1 ▸ hk) (by simp)⟩
      exact (List.mem_pair.mp hk).imp id .inl
    · rcases hk with hk | hk | ⟨rfl, hbp⟩
      · exact First.time_le hfirst (hother (.inl hk)) hy
      · exact First.time_le hfirst (hother (.inr hk)) hy
      · obtain ⟨bb, hbb, hle⟩ := hbypass hy
        have hlater : ∃ e, ((v.sq.side c).peekNonBlocking (v.delay c)).1 = some e ∧
            HeapOrd.le bb e = true := by
          by_contra hno
          refine hg ⟨hbp, greater_iff.mpr ⟨bb, hbb, fun e he hle => hno ⟨e, he, hle⟩⟩⟩
        obtain ⟨e, he, hle0⟩ := hlater
        rw [y.moved_of_ne _ (by simp)]
        exact ⟨e, he, le_not_shadowed h hbp he hbb hle0 hle hs⟩

/-- The first event that blocking holds back while it lasts. -/
theorem peekBlocking_spec (v : View R G) (c : Bool) {b : Option SimEvent × Queue}
    (hb : b = Maybenot.peekBlocking (v.sq.side c) (v.side c).blockingBypassable) :
    (∀ e, b.1 = some e → ¬ v.Free c b.2 ∧ ((v.sq.side c).heap b.2).peek = some e) ∧
    ∀ k, ¬ v.Free c k → ∀ y ∈ v.items c k, ∃ e, b.1 = some e ∧ e.time ≤ y.time := by
  have hblocking := EventQueue.First.single (v.sq.side c) 0 .blocking
  by_cases hbp : (v.side c).blockingBypassable = true
  · rw [Maybenot.peekBlocking, if_pos hbp] at hb
    subst hb
    refine ⟨fun e he => ⟨by simp [Free], he⟩, fun k hk y hy => ?_⟩
    obtain rfl : k = .blocking := by
      cases k <;> simp_all [Free]
    obtain ⟨e, he, hle⟩ := First.time_le hblocking (by simp) hy
    exact ⟨e, he, by simpa [SimEvent.moved_of_ne] using hle⟩
  · have hfirst := (EventQueue.First.single (v.sq.side c) 0 .bypassable).greater hblocking
      (by simp) (by simp)
    have hb : b = if greater (v.sq.side c).blocking.peek (v.sq.side c).bypassable.peek then
        ((v.sq.side c).blocking.peek, .blocking) else ((v.sq.side c).bypassable.peek, .bypassable) := by
      rw [hb, Maybenot.peekBlocking, if_neg hbp]
    change EventQueue.First _ _ _ (if greater (v.sq.side c).blocking.peek (v.sq.side c).bypassable.peek then
        ((v.sq.side c).blocking.peek, Queue.blocking)
        else ((v.sq.side c).bypassable.peek, .bypassable)) at hfirst
    rw [← hb] at hfirst
    have hne {k : Queue} (hk : k ∈ [Queue.bypassable] ++ [.blocking]) : k ≠ .base ∧ ¬ v.Free c k := by
      cases k <;> simp_all [Free]
    refine ⟨fun e he => ?_, fun k hk y hy => ?_⟩
    · obtain ⟨hmem, hhead⟩ := hfirst.head e he
      exact ⟨(hne hmem).2, hhead⟩
    · have hmem : k ∈ [Queue.bypassable] ++ [.blocking] := by
        cases k <;> simp_all [Free]
      obtain ⟨e, he, hle⟩ := First.time_le hfirst hmem hy
      rw [y.moved_of_ne _ (hne hmem).1] at hle
      exact ⟨e, he, (le_moved_time e _ _).trans hle⟩

theorem wait_of_not_free {v : View R G} (h : v.sq.WellFormed) {c : Bool} {k : Queue}
    {e : SimEvent} (he : e ∈ v.items c k) (hk : ¬ v.Free c k) :
    v.wait c k e = Instant.durationSince
      (max e.time ((v.side c).blockingUntil.getD v.currentTime)) v.currentTime := by
  apply wait_of_blocking h he
  cases k <;> simp_all [Free]

theorem durationSince_le {s t cur : Instant} (h : s ≤ t) :
    Instant.durationSince s cur ≤ Instant.durationSince t cur := by
  unfold Instant.durationSince
  lia

theorem free_wait {v : View R G} (h : v.sq.WellFormed) {c : Bool} {k : Queue} {e : SimEvent}
    (he : ((v.sq.side c).heap k).peek = some e) (hk : v.Free c k) :
    v.wait c k e = Instant.durationSince
      (if k = .base then e.time + v.delay c else e.time) v.currentTime := by
  rw [wait_of_free (not_held h (BinaryHeap.peek_mem he) hk), SimEvent.moved_time]

theorem free_wait_le {v : View R G} (h : v.sq.WellFormed) {c : Bool} {k j : Queue}
    {e y : SimEvent} (he : e ∈ v.items c k) (hk : v.Free c k) (hy : y ∈ v.items c j)
    (hj : v.Free c j) (hle : (e.moved k (v.delay c)).time ≤ (y.moved j (v.delay c)).time) :
    v.wait c k e ≤ v.wait c j y := by
  rw [wait_of_free (not_held h he hk), wait_of_free (not_held h hy hj)]
  exact durationSince_le hle

/-- Among the packets that blocking holds back the first is released first. -/
theorem held_wait_le {v : View R G} (h : v.sq.WellFormed) {c : Bool} {k j : Queue}
    {e y : SimEvent} (he : e ∈ v.items c k) (hk : ¬ v.Free c k) (hy : y ∈ v.items c j)
    (hj : ¬ v.Free c j) (hle : e.time ≤ y.time) : v.wait c k e ≤ v.wait c j y := by
  rw [wait_of_not_free h he hk, wait_of_not_free h hy hj]
  exact durationSince_le (max_le_max_right _ hle)

theorem not_shadowed {v : View R G} {c : Bool} {k : Queue} {e : SimEvent} (hk : ¬ v.Free c k) :
    ¬ v.Shadowed c k e := fun hs => hk (.inr (.inr ⟨hs.1, hs.2.1⟩))

/-- One side's answer: the first event that is not shadowed, by its release. -/
theorem earliestSide_spec {v : View R G} (h : v.sq.WellFormed) (c : Bool) :
    (peekQueueEarliestSide v.sq (v.side c).blockingUntil (v.side c).blockingBypassable
        v.currentTime (v.delay c) c = (⊤, .blocking, c) ∧
      ∀ k, ∀ y ∈ v.items c k, v.Shadowed c k y) ∨
    ∃ k e, peekQueueEarliestSide v.sq (v.side c).blockingUntil (v.side c).blockingBypassable
        v.currentTime (v.delay c) c = ((v.wait c k e : Wait), k, c) ∧
      ((v.sq.side c).heap k).peek = some e ∧ ¬ v.Shadowed c k e ∧
      ∀ j, ∀ y ∈ v.items c j, ¬ v.Shadowed c j y → v.wait c k e ≤ v.wait c j y := by
  obtain ⟨hbhead, hble⟩ := v.peekBlocking_spec c rfl
  obtain ⟨hnhead, hnle⟩ := peekNonBlocking_spec h c rfl
  have hmem {k : Queue} {e : SimEvent} (he : ((v.sq.side c).heap k).peek = some e) :
      e ∈ v.items c k := BinaryHeap.peek_mem he
  unfold peekQueueEarliestSide
  generalize hb : Maybenot.peekBlocking (v.sq.side c) (v.side c).blockingBypassable = b at *
  generalize hn : Maybenot.peekNonBlocking (v.sq.side c) (v.side c).blockingBypassable
    (v.delay c) = n at *
  obtain ⟨b, kb⟩ := b
  obtain ⟨n, kn⟩ := n
  dsimp only at *
  cases b with
  | none =>
    have hall {j : Queue} {y : SimEvent} (hy : y ∈ v.items c j) : v.Free c j := by
      by_contra hj
      obtain ⟨_, he, _⟩ := hble j hj y hy
      exact absurd he (by simp)
    cases n with
    | none =>
      refine .inl ⟨rfl, fun k y hy => ?_⟩
      by_contra hs
      obtain ⟨_, he, _⟩ := hnle k (hall hy) y hy hs
      exact absurd he (by simp)
    | some e =>
      obtain ⟨hk, hhead, hs⟩ := hnhead e rfl
      refine .inr ⟨kn, e, by rw [free_wait h hhead hk], hhead, hs, fun j y hy hsy => ?_⟩
      obtain ⟨_, ⟨⟩, hle⟩ := hnle j (hall hy) y hy hsy
      exact free_wait_le h (hmem hhead) hk hy (hall hy) hle
  | some x =>
    obtain ⟨hkb, hheadb⟩ := hbhead x rfl
    cases n with
    | none =>
      refine .inr ⟨kb, x, by rw [wait_of_not_free h (hmem hheadb) hkb], hheadb, not_shadowed hkb, ?_⟩
      intro j y hy hsy
      by_cases hj : v.Free c j
      · obtain ⟨_, he, _⟩ := hnle j hj y hy hsy
        exact absurd he (by simp)
      · obtain ⟨_, ⟨⟩, hle⟩ := hble j hj y hy
        exact held_wait_le h (hmem hheadb) hkb hy hj hle
    | some e =>
      obtain ⟨hkn, hheadn, hsn⟩ := hnhead e rfl
      have hboth {j : Queue} {y : SimEvent} (hy : y ∈ v.items c j) (hsy : ¬ v.Shadowed c j y) :
          v.wait c kn e ≤ v.wait c j y ∨ v.wait c kb x ≤ v.wait c j y := by
        by_cases hj : v.Free c j
        · obtain ⟨_, ⟨⟩, hle⟩ := hnle j hj y hy hsy
          exact .inl (free_wait_le h (hmem hheadn) hkn hy hj hle)
        · obtain ⟨_, ⟨⟩, hle⟩ := hble j hj y hy
          exact .inr (held_wait_le h (hmem hheadb) hkb hy hj hle)
      have hwb := wait_of_not_free h (hmem hheadb) hkb
      have hwn := free_wait h hheadn hkn
      right
      dsimp only
      by_cases hlt : max x.time ((v.side c).blockingUntil.getD v.currentTime) <
            (if kn = .base then e.time + v.delay c else e.time) ∨
          max x.time ((v.side c).blockingUntil.getD v.currentTime) =
            (if kn = .base then e.time + v.delay c else e.time) ∧ kn ≠ .base
      · rw [if_pos hlt]
        have hle : v.wait c kb x ≤ v.wait c kn e := by
          rw [hwb, hwn]
          exact durationSince_le (hlt.elim le_of_lt fun heq => heq.1.le)
        refine ⟨kb, x, by rw [hwb], hheadb, not_shadowed hkb, fun j y hy hsy => ?_⟩
        exact (hboth hy hsy).elim hle.trans id
      · rw [if_neg hlt]
        have hle : v.wait c kn e ≤ v.wait c kb x := by
          rw [hwb, hwn]
          exact durationSince_le (not_lt.mp fun hlt' => hlt (.inl hlt'))
        refine ⟨kn, e, by rw [hwn], hheadn, hsn, fun j y hy hsy => ?_⟩
        exact (hboth hy hsy).elim id hle.trans

/-- The wait for an event if nothing holds it back. -/
def ownWait (v : View R G) (c : Bool) (k : Queue) (e : SimEvent) : Duration :=
  Instant.durationSince (e.moved k (v.delay c)).time v.currentTime

theorem isEmpty_iff {v : View R G} : v.sq.isEmpty = true ↔ ∀ c k, v.items c k = 0 := by
  have hsides : v.sq.isEmpty = true ↔ v.sq.client.len = 0 ∧ v.sq.server.len = 0 := by
    rw [SimQueue.isEmpty, SimQueue.len, beq_iff_eq]
    omega
  rw [hsides, EventQueue.len_eq_zero, EventQueue.len_eq_zero, Bool.forall_bool]
  exact and_comm

/-- The head of the whole queue is not later than any event, with no look at blocking. -/
theorem peek_spec {v : View R G} (h : v.sq.WellFormed) (hne : ¬ v.sq.isEmpty = true) :
    ∃ c k e, v.sq.peek v.clientNetworkDelaySum v.serverNetworkDelaySum v.currentTime =
        .ok (some e, k, v.ownWait c k e) ∧
      e.client = c ∧ ((v.sq.side c).heap k).peek = some e ∧
      ∀ c' j, ∀ y ∈ v.items c' j, v.ownWait c k e ≤ v.ownWait c' j y := by
  have hlen : v.sq.len ≠ 0 := by simpa [SimQueue.isEmpty] using hne
  have hside {c : Bool} {k : Queue} {e : SimEvent} (hf : (v.sq.side c).First (v.delay c)
      [.bypassable, .blocking, .internal, .base] (some e, k)) :
      e.client = c ∧ ((v.sq.side c).heap k).peek = some e ∧
        ∀ j, ∀ y ∈ v.items c j, v.ownWait c k e ≤ v.ownWait c j y := by
    obtain ⟨_, hhead⟩ := hf.head e rfl
    refine ⟨(h c k e (BinaryHeap.peek_mem hhead)).2, hhead, fun j y hy => ?_⟩
    obtain ⟨_, ⟨⟩, hle⟩ := First.time_le hf (k := j) (by cases j <;> simp) hy
    exact durationSince_le hle
  have hnone {c : Bool} {n : Duration} (h0 : ∀ k, ((v.sq.side c).heap k).items = 0) :
      ∀ j, ∀ y ∈ v.items c j, n ≤ v.ownWait c j y := by
    intro j y hy
    exact absurd hy (by simp [items, h0])
  rw [SimQueue.peek, if_neg hlen]
  rcases (v.sq.side true).peek_spec (v.delay true) v.currentTime with
    ⟨hc, h0⟩ | ⟨ec, kc, hc, hfc⟩
  · rcases (v.sq.side false).peek_spec (v.delay false) v.currentTime with
      ⟨hs, h0'⟩ | ⟨es, ks, hs, hfs⟩
    · exact absurd (isEmpty_iff.mpr (Bool.forall_bool.mpr ⟨h0', h0⟩)) hne
    · obtain ⟨hcl, hhead, hle⟩ := hside hfs
      refine ⟨false, ks, es, ?_, hcl, hhead, Bool.forall_bool.mpr ⟨hle, hnone h0⟩⟩
      exact (bind_eq hc).trans (bind_eq hs)
  · obtain ⟨hclc, hheadc, hlec⟩ := hside hfc
    rcases (v.sq.side false).peek_spec (v.delay false) v.currentTime with
      ⟨hs, h0'⟩ | ⟨es, ks, hs, hfs⟩
    · refine ⟨true, kc, ec, ?_, hclc, hheadc, Bool.forall_bool.mpr ⟨hnone h0', hlec⟩⟩
      exact (bind_eq hc).trans (bind_eq hs)
    · obtain ⟨hcls, hheads, hles⟩ := hside hfs
      by_cases hb : notAfter (v.ownWait true kc ec) ec.event (v.ownWait false ks es) es.event = true
      · refine ⟨true, kc, ec, (bind_eq hc).trans ((bind_eq hs).trans (if_pos hb)), hclc, hheadc,
          Bool.forall_bool.mpr ⟨?_, hlec⟩⟩
        have hle := notAfter_time hb
        exact fun j y hy => (Int.ofNat_le.mp hle).trans (hles j y hy)
      · refine ⟨false, ks, es, (bind_eq hc).trans ((bind_eq hs).trans (if_neg hb)), hcls, hheads,
          Bool.forall_bool.mpr ⟨hles, ?_⟩⟩
        have hle := not_notAfter_time hb
        exact fun j y hy => (Int.ofNat_le.mp hle).trans (hlec j y hy)

theorem ownWait_le {v : View R G} (h : v.sq.WellFormed) {c : Bool} {k : Queue} {e : SimEvent}
    (he : e ∈ v.items c k) : v.ownWait c k e ≤ v.wait c k e :=
  moved_le_wait h he

/-- One side's part of a search past a held head. -/
def earliestSide (v : View R G) (c : Bool) : Wait × Queue × Bool :=
  peekQueueEarliestSide v.sq (v.side c).blockingUntil (v.side c).blockingBypassable
    v.currentTime (v.delay c) c

/-- A search goes past the head of the queue only if it is held. -/
theorem peekQueue_of_head {v : View R G} (hne : ¬ v.sq.isEmpty = true) {k : Queue} {e : SimEvent}
    {d : Duration} (hpeek : v.sq.peek v.clientNetworkDelaySum v.serverNetworkDelaySum v.currentTime =
      .ok (some e, k, d)) (earliest : Wait) :
    v.peekQueue earliest = .ok (if earliest < (d : Wait) then (⊤, .blocking, false)
      else if v.Held e.client e then
        if (v.earliestSide true).1 ≤ (v.earliestSide false).1 then v.earliestSide true
        else v.earliestSide false
      else ((d : Wait), k, e.client)) := by
  rw [peekQueue, Maybenot.peekQueue, if_neg hne]
  apply (bind_eq hpeek).trans
  by_cases hlate : earliest < (d : Wait)
  · simp [unwrap, hlate]
  simp only [unwrap, ok_bind, gt_iff_lt, hlate, if_false]
  by_cases he : e.event = .tunnelSent
  · simp only [he, ne_eq, not_true_eq_false, if_false, Held, side, earliestSide, delay]
    cases e.client <;> simp only [if_true, Bool.false_eq_true, if_false] <;>
      cases v.client.blockingUntil <;> cases v.server.blockingUntil <;>
      cases v.client.blockingBypassable <;> cases v.server.blockingBypassable <;>
      cases e.bypass <;> simp
  · have hfree : ¬ v.Held e.client e := fun hheld => he hheld.1
    rw [if_pos he, if_neg hfree]
    rfl

theorem headHeld_iff {v : View R G} {k : Queue} {e : SimEvent} {d : Duration}
    (hpeek : v.sq.peek v.clientNetworkDelaySum v.serverNetworkDelaySum v.currentTime =
      .ok (some e, k, d)) : v.HeadHeld ↔ v.Held e.client e := by
  constructor
  · rintro ⟨e', _, _, hpeek', hheld⟩
    obtain ⟨rfl, _⟩ : e = e' ∧ _ := by simpa using hpeek.symm.trans hpeek'
    exact hheld
  · exact fun hheld => ⟨e, k, d, hpeek, hheld⟩

/-- What a search answers: nothing if every event is later than `earliest`, or the head of
a heap that no event is earlier than, where a search past a held head leaves the shadowed
events out. -/
theorem peekQueue_spec {v : View R G} (h : v.sq.WellFormed) (earliest : Wait) :
    (v.peekQueue earliest = .ok (⊤, .blocking, false) ∧
      ∀ c k, ∀ e ∈ v.items c k, earliest < v.wait c k e) ∨
    ∃ c k e, v.peekQueue earliest = .ok ((v.wait c k e : Wait), k, c) ∧
      ((v.sq.side c).heap k).peek = some e ∧ (v.HeadHeld → ¬ v.Shadowed c k e) ∧
      ∀ c' j, ∀ y ∈ v.items c' j, (v.HeadHeld → ¬ v.Shadowed c' j y) →
        v.wait c k e ≤ v.wait c' j y := by
  by_cases hempty : v.sq.isEmpty = true
  · refine .inl ⟨?_, fun c k e he => absurd he (by simp [isEmpty_iff.mp hempty])⟩
    rw [peekQueue, Maybenot.peekQueue, if_pos hempty]
    rfl
  obtain ⟨c, k, e, hpeek, rfl, hhead, hle⟩ := peek_spec h hempty
  have hanswer := peekQueue_of_head hempty hpeek earliest
  have hheld := headHeld_iff hpeek
  by_cases hlate : earliest < (v.ownWait e.client k e : Wait)
  · rw [if_pos hlate] at hanswer
    refine .inl ⟨hanswer, fun c' j y hy => hlate.trans_le ?_⟩
    exact WithTop.coe_le_coe.mpr ((hle c' j y hy).trans (ownWait_le h hy))
  rw [if_neg hlate] at hanswer
  right
  by_cases hh : v.Held e.client e
  · rw [if_pos hh] at hanswer
    have hslow := hheld.mpr hh
    have hclear : ¬ v.Shadowed e.client k e :=
      fun hs => not_held h (BinaryHeap.peek_mem hhead) (.inr (.inr ⟨hs.1, hs.2.1⟩)) hh
    have hsees {c : Bool} {n : Duration} (hn : ∀ j, ∀ y ∈ v.items c j, ¬ v.Shadowed c j y →
        n ≤ v.wait c j y) : ∀ j, ∀ y ∈ v.items c j, (v.HeadHeld → ¬ v.Shadowed c j y) →
          n ≤ v.wait c j y := fun j y hy hs => hn j y hy (hs hslow)
    have hblind {c : Bool} {n : Duration} (hn : ∀ j, ∀ y ∈ v.items c j, v.Shadowed c j y) :
        ∀ j, ∀ y ∈ v.items c j, (v.HeadHeld → ¬ v.Shadowed c j y) → n ≤ v.wait c j y :=
      fun j y hy hs => absurd (hn j y hy) (hs hslow)
    rcases earliestSide_spec h true with ⟨hc, hnone⟩ | ⟨kc, ec, hc, hheadc, hsc, hlec⟩ <;>
      rcases earliestSide_spec h false with ⟨hs, hnone'⟩ | ⟨ks, es, hs, hheads, hss, hles⟩ <;>
      rw [show v.earliestSide true = _ from hc, show v.earliestSide false = _ from hs] at hanswer
    · have hall := Bool.forall_bool (p := fun c => ∀ k, ∀ y ∈ v.items c k, v.Shadowed c k y)
      exact absurd (hall.mpr ⟨hnone', hnone⟩ e.client k e (BinaryHeap.peek_mem hhead)) hclear
    · rw [if_neg (by simp)] at hanswer
      exact ⟨false, ks, es, hanswer, hheads, fun _ => hss,
        Bool.forall_bool.mpr ⟨hsees hles, hblind hnone⟩⟩
    · rw [if_pos le_top] at hanswer
      exact ⟨true, kc, ec, hanswer, hheadc, fun _ => hsc,
        Bool.forall_bool.mpr ⟨hblind hnone', hsees hlec⟩⟩
    · by_cases hle' : (v.wait true kc ec : Wait) ≤ v.wait false ks es
      · rw [if_pos hle'] at hanswer
        have hle' := WithTop.coe_le_coe.mp hle'
        exact ⟨true, kc, ec, hanswer, hheadc, fun _ => hsc, Bool.forall_bool.mpr
          ⟨hsees fun j y hy hsy => hle'.trans (hles j y hy hsy), hsees hlec⟩⟩
      · rw [if_neg hle'] at hanswer
        have hle' := WithTop.coe_le_coe.mp (le_of_not_ge hle')
        exact ⟨false, ks, es, hanswer, hheads, fun _ => hss, Bool.forall_bool.mpr
          ⟨hsees hles, hsees fun j y hy hsy => hle'.trans (hlec j y hy hsy)⟩⟩
  · rw [if_neg hh] at hanswer
    have hw : v.wait e.client k e = v.ownWait e.client k e := wait_of_free hh
    refine ⟨e.client, k, e, by rw [hanswer, hw], hhead, fun hslow => absurd (hheld.mp hslow) hh,
      fun c' j y hy _ => ?_⟩
    rw [hw]
    exact (hle c' j y hy).trans (ownWait_le h hy)

/-- A search finds the earliest release exactly where an event of that release is in sight. -/
theorem finds_earliest {v : View R G} (h : v.sq.Built) (earliest : Wait) :
    v.FindsEarliest earliest ↔ ¬ v.Hidden earliest := by
  have hwf := h.wellFormed
  constructor
  · rintro hfinds ⟨hle, hslow, hall⟩
    obtain ⟨k', c', hanswer⟩ := hfinds hle
    rcases peekQueue_spec hwf earliest with ⟨htop, hlate⟩ | ⟨c, k, e, hq, hhead, hclear, _⟩
    · rcases v.earliestWait_eq with ⟨c, k, e, he, hw⟩ | ⟨_, hnone⟩
      · exact absurd ((hlate c k e he).trans_le hw.le) (not_lt_of_ge hle)
      · obtain ⟨e, k, d, hpeek, _⟩ := hslow
        by_cases hempty : v.sq.isEmpty = true
        · have hlen : v.sq.len = 0 := by simpa [SimQueue.isEmpty] using hempty
          rw [SimQueue.peek, if_pos hlen] at hpeek
          exact absurd (pure_ok.mp hpeek) (by simp)
        · exact hempty (isEmpty_iff.mpr hnone)
    · obtain ⟨hw, _⟩ : (v.wait c k e : Wait) = v.earliestWait ∧ _ := by
        simpa using hq.symm.trans hanswer
      exact hclear hslow (hall c k e (BinaryHeap.peek_mem hhead) hw)
  · intro hsight hle
    rcases peekQueue_spec hwf earliest with ⟨htop, hlate⟩ | ⟨c, k, e, hq, hhead, _, hall⟩
    · rcases v.earliestWait_eq with ⟨c, k, e, he, hw⟩ | ⟨hw, _⟩
      · exact absurd ((hlate c k e he).trans_le hw.le) (not_lt_of_ge hle)
      · exact ⟨_, _, hw ▸ htop⟩
    · have hmem : e ∈ v.items c k := BinaryHeap.peek_mem hhead
      have hseen : ∃ c' j, ∃ y ∈ v.items c' j, (v.wait c' j y : Wait) = v.earliestWait ∧
          (v.HeadHeld → ¬ v.Shadowed c' j y) := by
        by_contra hno
        have hheld : v.HeadHeld := by
          by_contra hquick
          rcases v.earliestWait_eq with ⟨c', j, y, hy, hw⟩ | ⟨_, hnone⟩
          · exact hno ⟨c', j, y, hy, hw, fun hslow => absurd hslow hquick⟩
          · exact absurd hmem (by simp [hnone])
        refine hsight ⟨hle, hheld, fun c' j y hy hw => ?_⟩
        by_contra hs
        exact hno ⟨c', j, y, hy, hw, fun _ => hs⟩
      obtain ⟨c', j, y, hy, hw, hs⟩ := hseen
      have heq : (v.wait c k e : Wait) = v.earliestWait :=
        le_antisymm (hw ▸ WithTop.coe_le_coe.mpr (hall c' j y hy hs)) (earliestWait_le hmem)
      exact ⟨k, c, heq ▸ hq⟩

/-- A side that a bypassable blocking holds until 100, or that is not blocked. -/
def sideUntil (blockingUntil : Option Instant) : SimState Unit Unit where
  framework := {
    currentTime := 0, rng := (), actions := [], machines := [], runtime := []
    maxPaddingFrac := Flt.ofRat 0, normalSentPackets := 0, paddingSentPackets := 0
    maxBlockingFrac := Flt.ofRat 0, blockingDuration := 0, blockingStarted := 0
    blockingActive := false, signalPending := none, counterZeroedOnce := (false, false)
    frameworkStart := 0, log := [] }
  scheduledAction := []
  scheduledInternalTimer := []
  blockingUntil := blockingUntil
  blockingBypassable := true
  integration := none

/-- A packet to be held back, one that bypasses at 50 and a base event at 1. -/
def heldQueue : SimQueue :=
  ((SimQueue.new.pushSim ⟨.tunnelSent, 0, 0, true, false, false, false⟩).pushSim
    ⟨.tunnelSent, 50, 0, true, false, true, false⟩).pushSim
      ⟨.normalSent, 1, 0, true, false, false, false⟩

theorem heldQueue_built : heldQueue.Built := .push _ (.push _ (.push _ (.new none)))

def heldClient (delay : Duration) : View Unit Unit where
  sq := heldQueue
  client := sideUntil (some 100)
  server := sideUntil none
  clientNetworkDelaySum := delay
  serverNetworkDelaySum := 0
  currentTime := 0

/-- With a network delay of 100 the packet at 50 is not found. -/
theorem earliest_not_found : (heldClient 100).sq.Built ∧
    (∀ c, ∀ u ∈ ((heldClient 100).side c).blockingUntil, (heldClient 100).currentTime ≤ u) ∧
    (heldClient 100).earliestWait = (50 : Duration) ∧
    (heldClient 100).peekQueue ⊤ = .ok ((100 : Duration), .blocking, true) ∧
    ¬ (heldClient 100).FindsEarliest ⊤ := by
  have hearliest : (heldClient 100).earliestWait = (50 : Duration) := by decide +kernel
  have hanswer : (heldClient 100).peekQueue ⊤ = .ok ((100 : Duration), .blocking, true) := by
    decide +kernel
  refine ⟨heldQueue_built, by decide, hearliest, hanswer, fun hfinds => ?_⟩
  obtain ⟨k, c, hfound⟩ := hfinds le_top
  rw [hanswer, hearliest] at hfound
  have hwait : ((100 : Duration) : Wait) = (50 : Duration) := congrArg Prod.fst (Except.ok.inj hfound)
  exact absurd hwait (by decide)

/-- Without a network delay it is. -/
theorem earliest_found : (heldClient 0).FindsEarliest ⊤ := by
  apply (finds_earliest heldQueue_built ⊤).mpr
  rintro ⟨_, _, hall⟩
  have hmem : ⟨.normalSent, 1, 0, true, false, false, false⟩ ∈ (heldClient 0).items true .base := by
    decide +kernel
  have hearliest : ((heldClient 0).wait true .base ⟨.normalSent, 1, 0, true, false, false, false⟩ : Wait) =
      (heldClient 0).earliestWait := by decide +kernel
  exact absurd (hall true .base _ hmem hearliest).1 (by simp)

/-- When a popped event of a side is released: not before the end of a blocking that holds it. -/
def due (v : View R G) (c : Bool) (e : SimEvent) : Instant :=
  if v.Held c e then max e.time ((v.side c).blockingUntil.getD e.time) else e.time

theorem held_moved {v : View R G} {c : Bool} {k : Queue} {e : SimEvent} (delay : Duration) :
    v.Held c (e.moved k delay) ↔ v.Held c e := by
  unfold Held SimEvent.moved
  split <;> exact Iff.rfl

/-- The release of a queued event is the one of the popped event. -/
theorem due_moved {v : View R G} (h : v.sq.WellFormed) {c : Bool} {k : Queue} {e : SimEvent}
    (he : e ∈ v.items c k) : v.due c (e.moved k (v.delay c)) = v.release c k e := by
  simp only [due, release, held_moved]
  by_cases hk : k = .base
  · rw [if_neg (not_held h he (.inr (.inl hk))), if_pos hk, SimEvent.moved_time, if_pos hk]
  · rw [if_neg hk, e.moved_of_ne _ hk]

/-- A search and the removal of what it found agree: the event is of that side, and the time
to wait is the one to its release, so never less than what is left of a blocking that holds it. -/
theorem peeked_is_popped {v : View R G} (h : v.sq.Built) {earliest : Wait} {d : Duration}
    {k : Queue} {c : Bool} (hpeek : v.peekQueue earliest = .ok (↑d, k, c)) :
    ∃ e sq', v.sq.pop k c (v.delay c) = .ok (some e, sq') ∧ e.client = c ∧
      d = Instant.durationSince (v.due c e) v.currentTime ∧
      ∀ u, v.Held c e → (v.side c).blockingUntil = some u →
        Instant.durationSince u v.currentTime ≤ d := by
  have hwf := h.wellFormed
  rcases peekQueue_spec hwf earliest with ⟨htop, _⟩ | ⟨c', j, e, hans, hhead, _, _⟩
  · rw [htop] at hpeek
    exact absurd (congrArg Prod.fst (Except.ok.inj hpeek)) (by simp)
  · obtain ⟨hwait, hrest⟩ := Prod.mk.inj (Except.ok.inj (hans.symm.trans hpeek))
    obtain ⟨rfl, rfl⟩ := Prod.mk.inj hrest
    have hmem : e ∈ v.items c' j := BinaryHeap.peek_mem hhead
    have hd : d = Instant.durationSince (v.due c' (e.moved j (v.delay c'))) v.currentTime := by
      rw [due_moved hwf hmem]
      exact (WithTop.coe_injective hwait).symm
    refine ⟨_, _, SimQueue.pop_of _ hhead, ?_, hd, fun u hheld hu => ?_⟩
    · unfold SimEvent.moved
      split <;> exact (hwf c' j e hmem).2
    · rw [hd, due, if_pos hheld, hu, Option.getD_some]
      exact durationSince_le (le_max_right _ _)

/-- The packet that is held back is found with the time to the end of the blocking. -/
theorem held_packet_popped : ∃ e sq',
    (heldClient 100).sq.pop .blocking true ((heldClient 100).delay true) = .ok (some e, sq') ∧
      e.client = true ∧
      (100 : Duration) = Instant.durationSince ((heldClient 100).due true e) 0 ∧
      ∀ u, (heldClient 100).Held true e → ((heldClient 100).side true).blockingUntil = some u →
        Instant.durationSince u 0 ≤ (100 : Duration) :=
  have hpeek : (heldClient 100).peekQueue ⊤ = .ok ((100 : Duration), .blocking, true) := by
    decide +kernel
  peeked_is_popped heldQueue_built hpeek

end View

end Maybenot

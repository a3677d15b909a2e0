import Mathlib.Data.List.ReduceOption
import Maybenot.Proofs.Clocks
import Maybenot.Proofs.Picks
import Maybenot.Sim.Parse

namespace Maybenot
open Lib

theorem Instant.durationSince_later (c t u : Int) :
    Instant.durationSince (t + c) (u + c) = Instant.durationSince t u := by
  unfold Instant.durationSince
  lia

theorem keepsTime_later (c : Int) : KeepsTime (fun t : Instant => t + c) fun d : Duration => d where
  since t u := Instant.durationSince_later c t u
  zero := rfl
  fromMicros _ := rfl
  isZero _ := rfl
  divDurationF64 _ _ := rfl
  add _ _ := rfl
  lt _ _ := rfl

/-- The standard clock, moved by `c`. -/
def TimeMap.later (c : Int) : TimeMap Instant Duration Instant Duration where
  instant t := t + c
  duration d := d
  keeps := keepsTime_later c

theorem TriggerAction.map_id (a : TriggerAction D) : a.map id = a := by cases a <;> rfl

theorem notAfter_later (c t u : Int) (e e' : TriggerEvent) :
    notAfter (t + c) e (u + c) e' = notAfter t e u e' := by
  unfold notAfter
  grind

theorem unwrap_map (f : α → β) (x : Option α) : unwrap (x.map f) = (unwrap x).map f := by
  cases x <;> rfl

section Queue

def SimEvent.later (c : Int) (e : SimEvent) : SimEvent := { e with time := e.time + c }

theorem SimEvent.le_later (c : Int) (a b : SimEvent) :
    HeapOrd.le (a.later c) (b.later c) = HeapOrd.le a b := notAfter_later c _ _ _ _

def EventQueue.later (c : Int) (q : EventQueue) : EventQueue where
  base := q.base.map (SimEvent.later c) (SimEvent.le_later c)
  blocking := q.blocking.map (SimEvent.later c) (SimEvent.le_later c)
  bypassable := q.bypassable.map (SimEvent.later c) (SimEvent.le_later c)
  internal := q.internal.map (SimEvent.later c) (SimEvent.le_later c)

/-- A queue in which every event is moved by `c`. -/
def SimQueue.later (c : Int) (sq : SimQueue) : SimQueue where
  client := sq.client.later c
  server := sq.server.later c
  maxPps := sq.maxPps

variable (c : Int)

theorem greater_later (a b : Option SimEvent) :
    greater (a.map (SimEvent.later c)) (b.map (SimEvent.later c)) = greater a b := by
  cases a <;> cases b <;> simp only [greater, Option.map_some, Option.map_none, SimEvent.le_later]

theorem before_later (a b : Option SimEvent) (d : Duration) :
    before (a.map (SimEvent.later c)) (b.map (SimEvent.later c)) d = before a b d := by
  cases a with
  | none => rfl
  | some a =>
    cases b with
    | none => rfl
    | some b =>
      refine Eq.trans ?_ (notAfter_later c (a.time + d) b.time a.event b.event)
      exact congrArg (notAfter · _ _ _) (by simp only [SimEvent.later]; lia)

namespace EventQueue

theorem later_len (q : EventQueue) : (q.later c).len = q.len := by
  simp only [len, later, BinaryHeap.map_len]

theorem later_push (q : EventQueue) (e : SimEvent) :
    (q.later c).push (e.later c) = (q.push e).later c := by
  have hevent : (e.later c).event = e.event := rfl
  have hbypass : (e.later c).bypass = e.bypass := rfl
  unfold push
  rw [hevent, hbypass]
  split
  · split
    · simp only [later, BinaryHeap.map_push]
    · simp only [later, BinaryHeap.map_push]
  all_goals simp only [later, BinaryHeap.map_push]

theorem later_peekUnmoved (q : EventQueue) :
    (q.later c).peekUnmoved = (q.peekUnmoved.1.map (SimEvent.later c), q.peekUnmoved.2) := by
  unfold peekUnmoved
  simp only [later, BinaryHeap.map_peek]
  by_cases hfirst : greater q.blocking.peek q.bypassable.peek = true
  · simp only [greater_later, hfirst, if_true]
    split <;> rfl
  · simp only [greater_later, hfirst, Bool.false_eq_true, if_false]
    split <;> rfl

theorem later_peek (q : EventQueue) (d : Duration) (t : Instant) :
    (q.later c).peek d (t + c) =
      (q.peek d t).map fun r => (r.1.map (SimEvent.later c), r.2) := by
  have hbase : (q.later c).base.peek = q.base.peek.map (SimEvent.later c) :=
    BinaryHeap.map_peek (SimEvent.le_later c) _
  unfold peek
  simp only [later_len, later_peekUnmoved, hbase, before_later]
  split
  · rfl
  split
  · refine bind_carried (unwrap_map _ _) fun e => ?_
    have hwait : Instant.durationSince ((e.later c).time + d) (t + c) =
        Instant.durationSince (e.time + d) t := by
      simp only [SimEvent.later, Instant.durationSince]
      lia
    rw [hwait]
    rfl
  · refine bind_carried (unwrap_map _ _) fun e => ?_
    rw [show Instant.durationSince (e.later c).time (t + c) = _ from
      Instant.durationSince_later c e.time t]
    rfl

theorem later_pop (q : EventQueue) (k : Queue) (d : Duration) :
    (q.later c).pop k d = (q.pop k d).map fun r => (r.1.map (SimEvent.later c), r.2.later c) := by
  unfold pop
  cases k with
  | base =>
    dsimp only
    split
    · simp only [later, BinaryHeap.map_pop]
      rfl
    · simp only [later, BinaryHeap.map_pop]
      refine bind_carried (unwrap_map _ _) fun e => ?_
      refine congrArg (fun e => (pure (some e, _) : Exec _)) ?_
      simp only [SimEvent.later, SimEvent.mk.injEq, true_and, and_true]
      lia
  | _ =>
    simp only [later, BinaryHeap.map_pop]
    rfl

theorem later_peekNonBlocking (q : EventQueue) (d : Duration) :
    (q.later c).peekNonBlocking d =
      ((q.peekNonBlocking d).1.map (SimEvent.later c), (q.peekNonBlocking d).2) := by
  unfold peekNonBlocking
  simp only [later, BinaryHeap.map_peek, before_later]
  split <;> rfl

theorem later_noNormalPackets (q : EventQueue) :
    (q.later c).noNormalPackets = q.noNormalPackets := by
  simp only [noNormalPackets, later, BinaryHeap.isEmpty, BinaryHeap.map_len, BinaryHeap.map_iter,
    List.all_map]
  rfl

end EventQueue

theorem peekBlocking_later (q : EventQueue) (bypassable : Bool) :
    peekBlocking (q.later c) bypassable =
      ((peekBlocking q bypassable).1.map (SimEvent.later c), (peekBlocking q bypassable).2) := by
  unfold peekBlocking
  simp only [EventQueue.later, BinaryHeap.map_peek, greater_later]
  split
  · rfl
  · split <;> rfl

theorem peekNonBlocking_later (q : EventQueue) (bypassable : Bool) (d : Duration) :
    peekNonBlocking (q.later c) bypassable d =
      ((peekNonBlocking q bypassable d).1.map (SimEvent.later c),
        (peekNonBlocking q bypassable d).2) := by
  have hbypassable : (q.later c).bypassable.peek = q.bypassable.peek.map (SimEvent.later c) :=
    BinaryHeap.map_peek (SimEvent.le_later c) _
  unfold peekNonBlocking
  simp only [EventQueue.later_peekNonBlocking, hbypassable, greater_later]
  split
  · split <;> rfl
  · rfl

namespace SimQueue

theorem later_side (sq : SimQueue) (b : Bool) : (sq.later c).side b = (sq.side b).later c := by
  cases b <;> rfl

theorem later_setSide (sq : SimQueue) (b : Bool) (q : EventQueue) :
    (sq.later c).setSide b (q.later c) = (sq.setSide b q).later c := by cases b <;> rfl

theorem later_len (sq : SimQueue) : (sq.later c).len = sq.len := by
  simp only [len, later, EventQueue.later_len]

theorem later_noNormalPackets (sq : SimQueue) :
    (sq.later c).noNormalPackets = sq.noNormalPackets := by
  simp only [noNormalPackets, later, EventQueue.later_noNormalPackets]

theorem later_pushSim (sq : SimQueue) (e : SimEvent) :
    (sq.later c).pushSim (e.later c) = (sq.pushSim e).later c := by
  unfold pushSim
  rw [show (e.later c).client = e.client from rfl, later_side, EventQueue.later_push,
    later_setSide]

theorem later_push (sq : SimQueue) (event : TriggerEvent) (b padding : Bool) (t : Instant)
    (d : Duration) :
    (sq.later c).push event b padding (t + c) d = (sq.push event b padding t d).later c :=
  sq.later_pushSim c {
    event := event, time := t, integrationDelay := d, client := b
    containsPadding := padding, bypass := false, replace := false }

theorem later_peek (sq : SimQueue) (d d' : Duration) (t : Instant) :
    (sq.later c).peek d d' (t + c) =
      (sq.peek d d' t).map fun r => (r.1.map (SimEvent.later c), r.2) := by
  unfold peek
  rw [later_len]
  split
  · rfl
  refine bind_carried (sq.client.later_peek c d t) fun r => ?_
  refine bind_carried (sq.server.later_peek c d' t) fun r' => ?_
  obtain ⟨e, k, wait⟩ := r
  obtain ⟨e', k', wait'⟩ := r'
  cases e with
  | none => cases e' <;> rfl
  | some e =>
    cases e' with
    | none => rfl
    | some e' =>
      change (if notAfter wait e.event wait' e'.event = true then _ else _) =
        Except.map _ (if notAfter wait e.event wait' e'.event = true then _ else _)
      split <;> rfl

theorem later_pop (sq : SimQueue) (k : Queue) (b : Bool) (d : Duration) :
    (sq.later c).pop k b d =
      (sq.pop k b d).map fun r => (r.1.map (SimEvent.later c), r.2.later c) := by
  unfold pop
  rw [later_side]
  refine bind_carried ((sq.side b).later_pop c k d) fun r => ?_
  exact congrArg (fun sq => (pure (_, sq) : Exec _)) (sq.later_setSide c b r.2)

theorem later_popBlocking (sq : SimQueue) (k : Queue) (bypassable b : Bool) (d : Duration) :
    (sq.later c).popBlocking k bypassable b d =
      (sq.popBlocking k bypassable b d).map fun r => (r.1.map (SimEvent.later c), r.2.later c) := by
  unfold popBlocking
  split
  · have hpop : ((sq.side b).later c).blocking.pop =
        ((sq.side b).blocking.pop.1.map (SimEvent.later c), (sq.side b).blocking.pop.2.map
          (SimEvent.later c) (SimEvent.le_later c)) := BinaryHeap.map_pop (SimEvent.le_later c) _
    simp only [later_side, hpop]
    exact congrArg (fun sq => (pure (_, sq) : Exec _)) (sq.later_setSide c b
      { sq.side b with blocking := (sq.side b).blocking.pop.2 })
  · exact sq.later_pop c k b d

theorem later_getFirstTime (sq : SimQueue) :
    (sq.later c).getFirstTime = sq.getFirstTime.map (· + c) := by
  have hfirst (q : EventQueue) : (q.later c).getFirstBaseTime = q.getFirstBaseTime.map (· + c) := by
    simp only [EventQueue.getFirstBaseTime, EventQueue.later, BinaryHeap.map_peek, Option.map_map]
    rfl
  unfold getFirstTime
  simp only [later, hfirst]
  cases sq.client.getFirstBaseTime <;> cases sq.server.getFirstBaseTime <;> try rfl
  simp only [Option.map_some, Option.some.injEq]
  lia

end SimQueue

end Queue

section Network

theorem within_later (c : Int) (window : Duration) (t u : Instant) :
    within window (t + c) (u + c) = within window t u := by
  unfold within
  rw [Instant.durationSince_later]

variable (c : Int)

theorem burstTail_later (events : List SimEvent) (window : Duration) (head : Instant) :
    burstTail (events.map (SimEvent.later c)) window (head + c) =
      burstTail events window head + c := by
  unfold burstTail
  rw [List.foldl_map]
  refine List.foldl_hom (· + c) ?_
  intro tail e
  have hgt : (e.later c).time > tail + c ↔ e.time > tail := by
    simp only [SimEvent.later]
    lia
  simp only [hgt, show within window (head + c) (e.later c).time = _ from
    within_later c window head e.time]
  split <;> rfl

theorem within_base (window : Duration) (head : Instant) (e : SimEvent) (d : Duration) :
    within window (head + c) ((e.later c).time + d) = within window head (e.time + d) := by
  rw [show (e.later c).time + d = e.time + d + c by simp only [SimEvent.later]; lia, within_later]

theorem aggDelayOnBlockingExpire_later (sq : SimQueue) (b : Bool) (t : Instant) (e : SimEvent)
    (d : Duration) :
    aggDelayOnBlockingExpire (sq.later c) b (t + c) (e.later c) d =
      aggDelayOnBlockingExpire sq b t e d := by
  have htime : (e.later c).time = e.time + c := rfl
  unfold aggDelayOnBlockingExpire
  simp only [SimQueue.later_side, EventQueue.later, BinaryHeap.map_len, BinaryHeap.map_iter,
    BinaryHeap.map_peek, ← List.map_append, htime, burstTail_later, ← apply_ite (· + c),
    add_left_inj, Instant.durationSince_later]
  cases (sq.side b).base.peek with
  | none => rfl
  | some base => simp only [Option.map_some, within_base]

theorem any_within (window : Duration) (head : Instant) (es : List SimEvent) :
    (es.map (SimEvent.later c)).any (fun e => within window (head + c) e.time) =
      es.any fun e => within window head e.time := by
  rw [List.any_map]
  exact congrArg (es.any ·) (funext fun e => within_later c window head e.time)

theorem any_base (window : Duration) (head : Instant) (base : Option SimEvent) (d : Duration) :
    (base.map (SimEvent.later c)).any (fun e => within window (head + c) (e.time + d)) =
      base.any fun e => within window head (e.time + d) := by
  cases base with
  | none => rfl
  | some e => exact within_base c window head e d

theorem aggDelayOnPaddingBypassReplace_later (sq : SimQueue) (b : Bool) (t : Instant) (e : SimEvent)
    (d : Duration) :
    aggDelayOnPaddingBypassReplace (sq.later c) b (t + c) (e.later c) d =
      aggDelayOnPaddingBypassReplace sq b t e d := by
  have htime : (e.later c).time = e.time + c := rfl
  unfold aggDelayOnPaddingBypassReplace
  simp only [SimQueue.later_side, EventQueue.later, BinaryHeap.map_iter, BinaryHeap.map_peek,
    ← List.map_append, htime, any_within, any_base, Instant.durationSince_later]

theorem shouldDelayedPacketPropAggDelay_later (sq : SimQueue) (b : Bool) (e : SimEvent)
    (d : Duration) :
    shouldDelayedPacketPropAggDelay (sq.later c) b (e.later c) d =
      shouldDelayedPacketPropAggDelay sq b e d := by
  have htime : (e.later c).time = e.time + c := rfl
  unfold shouldDelayedPacketPropAggDelay
  simp only [SimQueue.later_side, EventQueue.later, BinaryHeap.map_iter, BinaryHeap.map_peek,
    ← List.map_append, htime, any_within, any_base]

def WindowCount.later (w : WindowCount) : WindowCount where
  window := w.window
  timestamps := w.timestamps.map (· + c)

theorem WindowCount.later_add (w : WindowCount) (t : Instant) :
    (w.later c).add (t + c) = ((w.add t).1, (w.add t).2.later c) := by
  have hkept : ((w.timestamps.map (· + c) ++ [t + c]).dropWhile fun oldest =>
      decide (Instant.durationSince (t + c) oldest > w.window)) =
      ((w.timestamps ++ [t]).dropWhile fun oldest =>
        decide (Instant.durationSince t oldest > w.window)).map (· + c) := by
    rw [show w.timestamps.map (· + c) ++ [t + c] = (w.timestamps ++ [t]).map (· + c) by simp,
      List.dropWhile_map]
    simp only [Function.comp_def, Instant.durationSince_later]
  exact Prod.ext ((congrArg List.length hkept).trans (List.length_map _))
    (congrArg (WindowCount.mk w.window) hkept)

def PendingAggregateDelay.later (d : PendingAggregateDelay) : PendingAggregateDelay :=
  { d with time := d.time + c }

theorem PendingAggregateDelay.le_later (a b : PendingAggregateDelay) :
    HeapOrd.le (a.later c) (b.later c) = HeapOrd.le a b := by
  simp only [HeapOrd.le, later]
  grind

def DelayPush.later (p : DelayPush) : DelayPush := { p with currentTime := p.currentTime + c }

def NetworkBottleneck.later (n : NetworkBottleneck) : NetworkBottleneck where
  clientAggregateBaseDelay := n.clientAggregateBaseDelay
  serverAggregateBaseDelay := n.serverAggregateBaseDelay
  aggregateDelayQueue :=
    n.aggregateDelayQueue.map (PendingAggregateDelay.later c) (PendingAggregateDelay.le_later c)
  network := n.network
  clientWindow := n.clientWindow.later c
  serverWindow := n.serverWindow.later c
  ppsAddedDelay := n.ppsAddedDelay
  ppsLimit := n.ppsLimit
  pushes := n.pushes.map (DelayPush.later c)

namespace NetworkBottleneck

theorem later_sample (n : NetworkBottleneck) (t : Instant) (b : Bool) :
    (n.later c).sample (t + c) b = ((n.sample t b).1, (n.sample t b).2.later c) := by
  unfold sample
  cases b
  all_goals
    simp only [Bool.false_eq_true, if_true, if_false, later, WindowCount.later_add]
    split
    · split <;> rfl
    · rfl

theorem later_peekAggregateDelay (n : NetworkBottleneck) (t : Instant) :
    (n.later c).peekAggregateDelay (t + c) = n.peekAggregateDelay t := by
  unfold peekAggregateDelay
  simp only [later, BinaryHeap.map_peek]
  cases n.aggregateDelayQueue.peek with
  | none => rfl
  | some d => exact congrArg (fun d : Duration => (d : Wait)) (Instant.durationSince_later c _ _)

theorem later_pushAggregateDelay (n : NetworkBottleneck) (d : Duration) (t : Instant) (b : Bool) :
    (n.later c).pushAggregateDelay d (t + c) b = (n.pushAggregateDelay d t b).later c := by
  have hmove (x : Duration) (side : Bool) : (⟨t + c + x, d, side⟩ : PendingAggregateDelay) =
      PendingAggregateDelay.later c ⟨t + x, d, side⟩ := by
    simp only [PendingAggregateDelay.later, PendingAggregateDelay.mk.injEq, and_true]
    lia
  unfold pushAggregateDelay
  simp only [later, hmove, BinaryHeap.map_push, List.map_append, List.map_singleton]
  rfl

theorem later_popAggregateDelay (n : NetworkBottleneck) :
    (n.later c).popAggregateDelay = n.popAggregateDelay.later c := by
  have hpop : (n.later c).aggregateDelayQueue.pop =
      (n.aggregateDelayQueue.pop.1.map (PendingAggregateDelay.later c),
        n.aggregateDelayQueue.pop.2.map (PendingAggregateDelay.later c)
          (PendingAggregateDelay.le_later c)) := BinaryHeap.map_pop _ _
  unfold popAggregateDelay
  rw [hpop]
  obtain ⟨d, queue⟩ := n.aggregateDelayQueue.pop
  cases d with
  | none => rfl
  | some d =>
    change (if d.client = true then _ else _) = later c (if d.client = true then _ else _)
    split <;> rfl

end NetworkBottleneck

end Network

section State

variable {R G : Type} (c : Int)

def ScheduledAction.later (a : ScheduledAction) : ScheduledAction := { a with time := a.time + c }

def SimState.later (s : SimState R G) : SimState R G where
  framework := (TimeMap.later c).framework s.framework
  scheduledAction := s.scheduledAction.map (Option.map (ScheduledAction.later c))
  scheduledInternalTimer := s.scheduledInternalTimer.map (Option.map (· + c))
  blockingUntil := s.blockingUntil.map (· + c)
  blockingBypassable := s.blockingBypassable
  integration := s.integration

theorem SimState.later_block (s : SimState R G) (time block : Instant) (bypass replace : Bool) :
    (s.later c).block (time + c) (block + c) bypass replace =
      (s.block time block bypass replace).later c := by
  have hgt : block + c > (s.later c).blockingUntil.getD (time + c) ↔
      block > s.blockingUntil.getD time := by
    simp only [later]
    cases s.blockingUntil <;> simp only [Option.map_some, Option.map_none, Option.getD_some,
      Option.getD_none] <;> lia
  unfold SimState.block
  simp only [hgt]
  split <;> rfl

theorem peekQueueEarliestSide_later (sq : SimQueue) (blockingUntil : Option Instant)
    (bypassable : Bool) (t : Instant) (d : Duration) (b : Bool) :
    peekQueueEarliestSide (sq.later c) (blockingUntil.map (· + c)) bypassable (t + c) d b =
      peekQueueEarliestSide sq blockingUntil bypassable t d b := by
  have huntil : (blockingUntil.map (· + c)).getD (t + c) = blockingUntil.getD t + c := by
    cases blockingUntil <;> rfl
  unfold peekQueueEarliestSide
  simp only [SimQueue.later_side, peekBlocking_later, peekNonBlocking_later, huntil]
  generalize peekBlocking (sq.side b) bypassable = head
  generalize peekNonBlocking (sq.side b) bypassable d = next
  generalize blockingUntil.getD t = u
  obtain ⟨head, k⟩ := head
  obtain ⟨next, k'⟩ := next
  have hmax (e : SimEvent) : max (e.later c).time (u + c) = max e.time u + c := by
    simp only [SimEvent.later]
    lia
  have hnext (e : SimEvent) : (if k' = .base then (e.later c).time + d else (e.later c).time) =
      (if k' = .base then e.time + d else e.time) + c := by
    simp only [SimEvent.later]
    split <;> lia
  cases head <;> cases next
  all_goals
    simp only [Option.map_some, Option.map_none, hmax, hnext, Instant.durationSince_later,
      add_lt_add_iff_right, add_left_inj]

theorem peekQueue_later (sq : SimQueue) (client server : SimState R G) (d d' : Duration)
    (earliest : Wait) (t : Instant) :
    peekQueue (sq.later c) (client.later c) (server.later c) d d' earliest (t + c) =
      peekQueue sq client server d d' earliest t := by
  have hsome (x : Option Instant) : (x.map (· + c)).isSome = x.isSome := Option.isSome_map
  unfold peekQueue
  simp only [SimQueue.isEmpty, SimQueue.later_len, SimQueue.later_peek, SimState.later, hsome,
    peekQueueEarliestSide_later]
  split
  · rfl
  cases sq.peek d d' t with
  | error e => rfl
  | ok r =>
    obtain ⟨e, k, wait⟩ := r
    cases e <;> rfl

theorem peekEarliest_later (times : List Instant) (t : Instant) (earliest : Wait) :
    peekEarliest (times.map (· + c)) (t + c) earliest = peekEarliest times t earliest := by
  unfold peekEarliest
  rw [List.foldl_map]
  congr 1
  funext earliest u
  simp only [Instant.durationSince_later, ge_iff_le, add_le_add_iff_right]

theorem peekScheduledAction_later (client server : List (Option ScheduledAction)) (t : Instant) :
    peekScheduledAction (client.map (Option.map (ScheduledAction.later c)))
        (server.map (Option.map (ScheduledAction.later c))) (t + c) =
      peekScheduledAction client server t := by
  have htimes (xs : List (Option ScheduledAction)) :
      (xs.map (Option.map (ScheduledAction.later c))).reduceOption.map (·.time) =
        (xs.reduceOption.map (·.time)).map (· + c) := by
    rw [List.reduceOption_map, List.map_map, List.map_map]
    rfl
  simp only [peekScheduledAction, htimes, peekEarliest_later]

theorem peekScheduledInternalTimer_later (client server : List (Option Instant)) (t : Instant) :
    peekScheduledInternalTimer (client.map (Option.map (· + c))) (server.map (Option.map (· + c)))
        (t + c) =
      peekScheduledInternalTimer client server t := by
  simp only [peekScheduledInternalTimer, List.reduceOption_map, peekEarliest_later]

theorem peekBlockedExp_later (client server : Option Instant) (t : Instant) :
    peekBlockedExp (client.map (· + c)) (server.map (· + c)) (t + c) =
      peekBlockedExp client server t := by
  cases client <;> cases server
  all_goals
    simp only [peekBlockedExp, Option.map_some, Option.map_none, Instant.durationSince_later,
      add_lt_add_iff_right]

end State

section Pick

variable {R G : Type} (c : Int)

def SimStep.later : SimStep → SimStep
  | .blocked client time block bypass replace =>
    .blocked client (time + c) (block + c) bypass replace
  | .expired client blockingUntil => .expired client (blockingUntil + c)
  | .picked queued next => .picked (queued.later c) (next.later c)
  | .replaced client => .replaced client
  | .processed next => .processed (next.later c)

/-- A simulation in which everything is moved by `c`. -/
def Sim.later (w : Sim R G) : Sim R G where
  sq := w.sq.later c
  client := w.client.later c
  server := w.server.later c
  network := w.network.later c
  currentTime := w.currentTime + c
  rng := w.rng
  trace := w.trace.map (SimEvent.later c)
  simIterations := w.simIterations
  log := w.log.map (SimStep.later c)

def Pick.later : Pick → Pick
  | .again => .again
  | .found next => .found (next.map (SimEvent.later c))

theorem SimEvent.later_forward (e : SimEvent) (t : Instant) :
    (e.later c).forward (t + c) = (e.forward t).later c := by
  have hgt : t + c > (e.later c).time ↔ t > e.time := by
    simp only [later]
    lia
  unfold forward
  simp only [hgt]
  split <;> rfl

namespace Sim

theorem later_side (w : Sim R G) (b : Bool) : (w.later c).side b = (w.side b).later c := by
  cases b <;> rfl

theorem later_setSide (w : Sim R G) (b : Bool) (s : SimState R G) :
    (w.later c).setSide b (s.later c) = (w.setSide b s).later c := by cases b <;> rfl

theorem later_note (w : Sim R G) (s : SimStep) :
    (w.later c).note (s.later c) = (w.note s).later c := by
  simp only [note, later, List.map_append, List.map_cons, List.map_nil]

theorem later_pushSim (w : Sim R G) (e : SimEvent) :
    (w.later c).pushSim (e.later c) = (w.pushSim e).later c := by
  simp only [pushSim, later, SimQueue.later_pushSim]

theorem later_actionWait (w : Sim R G) : (w.later c).actionWait = w.actionWait :=
  peekScheduledAction_later c _ _ _

theorem later_timerWait (w : Sim R G) : (w.later c).timerWait = w.timerWait :=
  peekScheduledInternalTimer_later c _ _ _

theorem later_expiryWait (w : Sim R G) : (w.later c).expiryWait = w.expiryWait :=
  peekBlockedExp_later c _ _ _

theorem later_delayWait (w : Sim R G) : (w.later c).delayWait = w.delayWait :=
  NetworkBottleneck.later_peekAggregateDelay c _ _

theorem later_queueWait (w : Sim R G) : (w.later c).queueWait = w.queueWait := by
  have hother : (w.later c).otherWait = w.otherWait := by
    simp only [otherWait, later_actionWait, later_timerWait, later_expiryWait, later_delayWait]
  unfold queueWait
  rw [hother]
  exact peekQueue_later c _ _ _ _ _ _ _

theorem later_expiryDelay (w : Sim R G) (b : Bool) (t : Instant) :
    (w.later c).expiryDelay b (t + c) = (w.expiryDelay b t).later c := by
  have hpeek : (peekBlocking ((w.later c).sq.side b) false).1 =
      (peekBlocking (w.sq.side b) false).1.map (SimEvent.later c) := by
    rw [show (w.later c).sq.side b = _ from w.sq.later_side c b, peekBlocking_later]
  unfold expiryDelay
  rw [hpeek]
  cases (peekBlocking (w.sq.side b) false).1 with
  | none => rfl
  | some e =>
    have hlt : (e.later c).time < t + c ↔ e.time < t := by
      simp only [SimEvent.later]
      lia
    have hdelay : aggDelayOnBlockingExpire (w.later c).sq b (t + c) (e.later c)
        ((w.later c).network.aggregateBaseDelay b) =
          aggDelayOnBlockingExpire w.sq b t e (w.network.aggregateBaseDelay b) :=
      aggDelayOnBlockingExpire_later c w.sq b t e _
    simp only [Option.map_some, hlt, hdelay]
    split
    · cases aggDelayOnBlockingExpire w.sq b t e (w.network.aggregateBaseDelay b) with
      | none => rfl
      | some d => exact w.network.later_pushAggregateDelay c d t b
    · rfl

theorem later_expire (w : Sim R G) (d : Duration) (b : Bool) :
    (w.later c).expire d b = ((w.expire d b).1.later c, (w.expire d b).2.later c) := by
  have htime : (w.later c).currentTime + d = w.currentTime + d + c := by
    simp only [later]
    lia
  have hended (t : Instant) (x : Duration) :
      blockingEnded b (t + c) x = (blockingEnded b t x).later c := by
    simp only [blockingEnded, SimEvent.later, SimEvent.mk.injEq, true_and, and_true]
    lia
  have hset := w.later_setSide c b { w.side b with blockingUntil := none }
  have hunblocked (g : G) : (w.later c).unblocked d b g = (w.unblocked d b g).later c := by
    unfold unblocked
    rw [htime, later_expiryDelay, later_side]
    let v : Sim R G := { w.setSide b { w.side b with blockingUntil := none } with
      rng := g, network := w.expiryDelay b (w.currentTime + d) }
    exact (congrArg (fun v : Sim R G => note
      { v with rng := g, network := (w.expiryDelay b (w.currentTime + d)).later c }
      (.expired b (w.currentTime + d + c))) hset).trans
        (later_note c v (.expired b (w.currentTime + d)))
  obtain ⟨⟨x, g⟩, hx⟩ : ∃ r, (w.side b).reportingDelay w.rng = r := ⟨_, rfl⟩
  have hx' : ((w.later c).side b).reportingDelay (w.later c).rng = (x, g) := by
    rw [later_side]
    exact hx
  rw [expire_eq hx, expire_eq hx', htime, hunblocked, hended, later_pushSim]
  split
  · rfl
  · exact congrArg (fun w => (_, w)) (later_note c (w.unblocked d b g) (.picked _ _))

theorem takeFirst_map {f : α → β} {p : α → Bool} {p' : β → Bool} (h : ∀ a, p' (f a) = p a)
    (xs : List (Option α)) :
    takeFirst p' (xs.map (Option.map f)) =
      (takeFirst p xs).map fun r => (r.1, f r.2.1, r.2.2.map (Option.map f)) := by
  induction xs with
  | nil => rfl
  | cons x xs ih =>
    cases x with
    | none =>
      simp only [List.map_cons, Option.map_none, takeFirst, ih, Option.map_map]
      rfl
    | some a =>
      simp only [List.map_cons, Option.map_some, takeFirst, h, ih]
      split
      · rfl
      · simp only [Option.map_map]
        rfl

theorem takeDue_map {f : α → β} {time : α → Instant} {time' : β → Instant}
    (h : ∀ a, time' (f a) = time a + c) (target : Instant) (client server : List (Option α)) :
    takeDue time' (target + c) (client.map (Option.map f)) (server.map (Option.map f)) =
      (takeDue time target client server).map fun r =>
        (r.1, r.2.1, f r.2.2.1, r.2.2.2.map (Option.map f)) := by
  have hfirst (xs : List (Option α)) :
      takeFirst (fun b => time' b == target + c) (xs.map (Option.map f)) =
        (takeFirst (fun a => time a == target) xs).map fun r =>
          (r.1, f r.2.1, r.2.2.map (Option.map f)) := by
    refine takeFirst_map (fun a => ?_) xs
    rw [h, Bool.eq_iff_iff, beq_iff_eq, beq_iff_eq]
    exact add_left_inj c
  unfold takeDue
  rw [hfirst, hfirst]
  cases takeFirst (fun a => time a == target) client with
  | some r => rfl
  | none => cases takeFirst (fun a => time a == target) server <;> rfl

theorem later_doInternalTimer (w : Sim R G) (target : Instant) :
    (w.later c).doInternalTimer (target + c) =
      (w.doInternalTimer target).map fun r => (r.1.later c, r.2.later c) := by
  have hdue : takeDue id (target + c) (w.later c).client.scheduledInternalTimer
      (w.later c).server.scheduledInternalTimer =
        (takeDue id target w.client.scheduledInternalTimer w.server.scheduledInternalTimer).map
          fun r => (r.1, r.2.1, r.2.2.1 + c, r.2.2.2.map (Option.map (· + c))) :=
    takeDue_map (f := (· + c)) c (fun _ => rfl) target _ _
  unfold doInternalTimer
  rw [hdue]
  cases takeDue id target w.client.scheduledInternalTimer w.server.scheduledInternalTimer with
  | none => rfl
  | some r =>
    obtain ⟨b, machine, t, timers⟩ := r
    refine congrArg (fun w => (pure (_, w) : Exec _)) ?_
    refine Eq.trans ?_ (w.later_setSide c b { w.side b with scheduledInternalTimer := timers })
    rw [later_side]
    rfl

theorem later_doScheduledAction (w : Sim R G) (target : Instant) :
    (w.later c).doScheduledAction (target + c) =
      (w.doScheduledAction target).map fun r => (r.1.later c, r.2.later c) := by
  have hdue : takeDue (·.time) (target + c) (w.later c).client.scheduledAction
      (w.later c).server.scheduledAction =
        (takeDue (·.time) target w.client.scheduledAction w.server.scheduledAction).map
          fun r =>
            (r.1, r.2.1, r.2.2.1.later c, r.2.2.2.map (Option.map (ScheduledAction.later c))) :=
    takeDue_map (f := ScheduledAction.later c) c (fun _ => rfl) target _ _
  unfold doScheduledAction
  rw [hdue]
  generalize takeDue (·.time) target w.client.scheduledAction w.server.scheduledAction = due
  rcases due with _ | ⟨b, mi, ⟨action, time⟩, actions⟩
  · rfl
  let s : SimState R G := { w.side b with scheduledAction := actions }
  have hset := w.later_setSide c b s
  cases action with
  | cancel machine timer => rfl
  | updateTimer duration replace machine => rfl
  | sendPadding timeout bypass replace machine =>
    dsimp only [Option.map_some, ScheduledAction.later]
    rw [later_side]
    refine congrArg (fun v => (pure (_, v) : Exec _)) ?_
    exact congrArg (fun v : Sim R G => { v with rng := (s.actionDelay w.rng).2 }) hset
  | blockOutgoing timeout duration bypass replace machine =>
    let x := s.block time (time + duration) bypass replace
    have hends : time + c + duration = time + duration + c := by lia
    have hblock : SimState.block { (w.side b).later c with
        scheduledAction := actions.map (Option.map (ScheduledAction.later c)) }
          (time + c) (time + duration + c) bypass replace = x.later c :=
      s.later_block c time (time + duration) bypass replace
    dsimp only [Option.map_some, ScheduledAction.later]
    rw [later_side, hends, hblock]
    refine congrArg (fun r : SimEvent × Sim R G => (pure r : Exec _)) (Prod.ext ?_ ?_)
    · refine SimEvent.mk.injEq .. |>.mpr ⟨rfl, ?_, rfl, rfl, rfl, rfl, rfl⟩
      exact add_right_comm time c _
    · let v : Sim R G := { w.setSide b x with
        rng := (s.reportingDelay (s.actionDelay w.rng).2).2 }
      exact (congrArg (fun y : Sim R G => note { y with
        rng := (s.reportingDelay (s.actionDelay w.rng).2).2 }
          (.blocked b (time + c) (time + duration + c) bypass replace))
            (w.later_setSide c b x)).trans
              (later_note c v (.blocked b time (time + duration) bypass replace))

theorem later_popQueue (w : Sim R G) (d : Duration) (k : Queue) (b : Bool) :
    (w.later c).popQueue d k b = (w.popQueue d k b).map fun r => (r.1.later c, r.2.later c) := by
  have htime : (w.later c).currentTime + d = w.currentTime + d + c := by
    simp only [later]
    lia
  refine bind_carried (w.sq.later_pop c k b _) fun r => bind_carried (unwrap_map _ _) fun e => ?_
  rw [htime, SimEvent.later_forward]
  exact congrArg (fun w => (pure (_, w) : Exec _))
    (later_note c { w with sq := r.2 } (.picked e (e.forward (w.currentTime + d))))

theorem later_pickStep (w : Sim R G) :
    (w.later c).pickStep = w.pickStep.map fun r => (r.1.later c, r.2.later c) := by
  have htime (d : Duration) : (w.later c).currentTime + d = w.currentTime + d + c := by
    simp only [later]
    lia
  unfold pickStep
  simp only [later_actionWait, later_timerWait, later_expiryWait, later_delayWait, later_queueWait]
  refine bind_alike fun q => ?_
  split
  · rfl
  split
  · exact congrArg (fun n => (pure (Pick.again, { w.later c with network := n }) : Exec _))
      (w.network.later_popAggregateDelay c)
  split
  · exact congrArg (fun r => (pure r : Exec _)) (later_expire c w _ _)
  split
  · exact later_popQueue c w _ _ _
  split
  · rw [htime]
    refine bind_carried (later_doInternalTimer c w _) fun r => ?_
    exact congrArg (fun w => (pure (Pick.again, w) : Exec _)) (later_pushSim c r.2 r.1)
  · rw [htime]
    refine bind_carried (later_doScheduledAction c w _) fun r => ?_
    exact congrArg (fun w => (pure (Pick.again, w) : Exec _)) (later_pushSim c r.2 r.1)

end Sim

end Pick

section Loop

variable {R G : Type} (c : Int)

theorem SimEvent.later_adjusted (e : SimEvent) : (e.later c).adjusted = e.adjusted.later c := by
  have hback : (e.later c).time - e.integrationDelay = e.time - e.integrationDelay + c := by
    simp only [later]
    lia
  have hforward : (e.later c).time + e.integrationDelay = e.time + e.integrationDelay + c := by
    simp only [later]
    lia
  obtain ⟨event, time, delay, client, padding, bypass, replace⟩ := e
  cases event with
  | tunnelSent =>
    cases padding
    · exact congrArg (SimEvent.mk _ · _ _ _ _ _) hback
    · exact congrArg (SimEvent.mk _ · _ _ _ _ _) hforward
  | paddingSent machine => exact congrArg (SimEvent.mk _ · _ _ _ _ _) hforward
  | normalSent | tunnelRecv | paddingRecv | normalRecv =>
    exact congrArg (SimEvent.mk _ · _ _ _ _ _) hback
  | _ => rfl

namespace Sim

theorem later_replacePadding (w : Sim R G) (e : SimEvent) :
    (w.later c).replacePadding (e.later c) = (w.replacePadding e).map (Option.map (later c)) := by
  have hpeek : peekBlocking ((w.later c).sq.side e.client) (w.side e.client).blockingBypassable =
      ((peekBlocking (w.sq.side e.client) (w.side e.client).blockingBypassable).1.map
        (SimEvent.later c),
        (peekBlocking (w.sq.side e.client) (w.side e.client).blockingBypassable).2) := by
    rw [show (w.later c).sq.side e.client = _ from w.sq.later_side c e.client,
      peekBlocking_later]
  have hside : ((w.later c).side (e.later c).client).blockingBypassable =
      (w.side e.client).blockingBypassable := by
    rw [later_side]
    rfl
  unfold replacePadding
  dsimp only
  rw [hside, show (e.later c).client = e.client from rfl, hpeek]
  generalize peekBlocking (w.sq.side e.client) (w.side e.client).blockingBypassable = head
  obtain ⟨queued, k⟩ := head
  cases queued with
  | none => rfl
  | some queued =>
    have hnote := later_note c w (.replaced e.client)
    change (if queued.client = e.client ∧ queued.event = .tunnelSent ∧
      queued.containsPadding = false then if e.bypass = true then _ else _ else _) =
        Except.map _ (if queued.client = e.client ∧ queued.event = .tunnelSent ∧
          queued.containsPadding = false then if e.bypass = true then _ else _ else _)
    split
    · split
      · refine bind_carried (w.sq.later_popBlocking c k _ e.client _) fun r => ?_
        refine bind_carried (unwrap_map _ _) fun popped => ?_
        let entry := { popped with bypass := true, replace := false }
        have hsq := r.2.later_pushSim c entry
        have hdelay : aggDelayOnPaddingBypassReplace (r.2.later c) e.client (w.later c).currentTime
            (entry.later c) ((w.later c).network.aggregateBaseDelay e.client) =
              aggDelayOnPaddingBypassReplace r.2 e.client w.currentTime entry
                (w.network.aggregateBaseDelay e.client) :=
          aggDelayOnPaddingBypassReplace_later c r.2 e.client w.currentTime entry _
        dsimp only
        rw [show { popped.later c with bypass := true, replace := false } = entry.later c from rfl,
          hdelay, hsq]
        cases aggDelayOnPaddingBypassReplace r.2 e.client w.currentTime entry
            (w.network.aggregateBaseDelay e.client) with
        | none =>
          exact congrArg (fun w => (pure (some w) : Exec _))
            (later_note c { w with sq := r.2.pushSim entry } (.replaced e.client))
        | some d =>
          have hnetwork := w.network.later_pushAggregateDelay c d w.currentTime e.client
          refine congrArg (fun w => (pure (some w) : Exec _)) ?_
          refine Eq.trans ?_ (later_note c { w with
            sq := r.2.pushSim entry
            network := w.network.pushAggregateDelay d w.currentTime e.client } (.replaced e.client))
          exact congrArg (fun n : NetworkBottleneck => note { w.later c with
            sq := (r.2.pushSim entry).later c, network := n } (.replaced e.client)) hnetwork
      · exact congrArg (fun w => (pure (some w) : Exec _)) hnote
    · rfl

theorem later_sendPacket (w : Sim R G) (e : SimEvent) :
    (w.later c).sendPacket (e.later c) = (w.sendPacket e).later c := by
  obtain ⟨⟨x, g⟩, hx⟩ : ∃ r, (w.side !e.client).reportingDelay w.rng = r := ⟨_, rfl⟩
  obtain ⟨⟨⟨delay, pps⟩, n⟩, hn⟩ : ∃ r, w.network.sample w.currentTime e.client = r := ⟨_, rfl⟩
  have hx' : ((w.later c).side !(e.later c).client).reportingDelay (w.later c).rng = (x, g) := by
    rw [show (e.later c).client = e.client from rfl, later_side]
    exact hx
  have hn' : (w.later c).network.sample (w.later c).currentTime (e.later c).client =
      ((delay, pps), n.later c) :=
    (w.network.later_sample c w.currentTime e.client).trans (by rw [hn])
  have hprop : shouldDelayedPacketPropAggDelay (w.later c).sq (e.later c).client (e.later c)
      (n.later c).clientAggregateBaseDelay =
        shouldDelayedPacketPropAggDelay w.sq e.client e n.clientAggregateBaseDelay :=
    shouldDelayedPacketPropAggDelay_later c w.sq e.client e _
  have htime : (if e.containsPadding = true then
      (e.later c).time + e.integrationDelay + delay + x
      else max ((e.later c).time - e.integrationDelay + delay + x) (w.later c).currentTime) =
      (if e.containsPadding = true then e.time + e.integrationDelay + delay + x
      else max (e.time - e.integrationDelay + delay + x) w.currentTime) + c := by
    simp only [SimEvent.later, later]
    split <;> lia
  let arrival (t : Instant) : SimEvent := {
    event := .tunnelRecv, time := t, integrationDelay := x, client := !e.client
    containsPadding := e.containsPadding, bypass := false, replace := false }
  have hpush (n : NetworkBottleneck) := (congrArg (fun t => pushSim
    { w.later c with rng := g, network := n.later c } (arrival t)) htime).trans
      (later_pushSim c { w with rng := g, network := n } (arrival _))
  unfold sendPacket
  rw [hx, hx', hn, hn']
  dsimp only
  rw [hprop]
  cases pps with
  | none => exact hpush n
  | some d =>
    dsimp only
    split
    · refine Eq.trans ?_ (hpush (n.pushAggregateDelay d w.currentTime e.client))
      exact congrArg (fun n => pushSim { w.later c with rng := g, network := n } (arrival _))
        (n.later_pushAggregateDelay c d w.currentTime e.client)
    · exact hpush n

theorem later_simNetworkStack (w : Sim R G) (e : SimEvent) :
    (w.later c).simNetworkStack (e.later c) =
      (w.simNetworkStack e).map fun r => (r.1, r.2.later c) := by
  have hsent (padding bypass replace : Bool) :
      (w.later c).pushSim ((e.later c).tunnelSent padding bypass replace) =
        (w.pushSim (e.tunnelSent padding bypass replace)).later c :=
    later_pushSim c w (e.tunnelSent padding bypass replace)
  unfold simNetworkStack
  rw [show (e.later c).event = e.event from rfl]
  cases e.event with
  | normalSent => exact congrArg (fun w => (pure (false, w) : Exec _)) (hsent _ _ _)
  | tunnelSent => exact congrArg (fun w => (pure (true, w) : Exec _)) (later_sendPacket c w e)
  | tunnelRecv =>
    refine congrArg (fun sq => (pure (true, { w.later c with sq := sq }) : Exec _)) ?_
    exact w.sq.later_push c _ e.client e.containsPadding e.time e.integrationDelay
  | paddingSent machine =>
    change (if e.replace = true then _ else _) = Except.map _ (if e.replace = true then _ else _)
    split
    · refine bind_carried (later_replacePadding c w e) fun r => ?_
      cases r with
      | none => exact congrArg (fun w => (pure (false, w) : Exec _)) (hsent _ _ _)
      | some w => rfl
    · exact congrArg (fun w => (pure (false, w) : Exec _)) (hsent _ _ _)
  | _ => rfl

theorem setAt_map (f : α → β) (xs : List α) (i : Nat) (x : α) :
    setAt (xs.map f) i (f x) = (setAt xs i x).map (List.map f) := by
  unfold setAt
  rw [List.length_map, ← List.map_set]
  split <;> rfl

theorem later_applyAction (w : Sim R G) (b : Bool) (d : Duration) (a : TriggerAction Duration) :
    applyAction b d (w.later c) a = (applyAction b d w a).map (later c) := by
  have hset (s : SimState R G) : (pure ((w.later c).setSide b (s.later c)) : Exec _) =
      Except.map (later c) (pure (w.setSide b s)) := congrArg pure (w.later_setSide c b s)
  have hactions (i : Nat) (a : Option ScheduledAction) :
      setAt ((w.side b).later c).scheduledAction i (a.map (ScheduledAction.later c)) =
        (setAt (w.side b).scheduledAction i a).map (List.map (Option.map
          (ScheduledAction.later c))) := setAt_map _ _ i a
  have htimers (i : Nat) (t : Option Instant) :
      setAt ((w.side b).later c).scheduledInternalTimer i (t.map (· + c)) =
        (setAt (w.side b).scheduledInternalTimer i t).map (List.map (Option.map (· + c))) :=
    setAt_map _ _ i t
  have hdue (timeout : Duration) :
      (w.later c).currentTime + timeout + d = w.currentTime + timeout + d + c := by
    simp only [later]
    lia
  unfold applyAction
  dsimp only
  rw [later_side]
  cases a with
  | cancel machine timer =>
    cases timer with
    | action =>
      refine bind_carried (hactions machine none) fun xs => ?_
      exact hset { w.side b with scheduledAction := xs }
    | internal =>
      refine bind_carried (htimers machine none) fun ts => ?_
      exact hset { w.side b with scheduledInternalTimer := ts }
    | all =>
      refine bind_carried (hactions machine none) fun xs => ?_
      refine bind_carried (htimers machine none) fun ts => ?_
      exact hset { w.side b with scheduledAction := xs, scheduledInternalTimer := ts }
  | sendPadding timeout bypass replace machine =>
    dsimp only
    rw [hdue]
    refine bind_carried (hactions machine (some ⟨_, _⟩)) fun xs => ?_
    exact hset { w.side b with scheduledAction := xs }
  | blockOutgoing timeout duration bypass replace machine =>
    dsimp only
    rw [hdue]
    refine bind_carried (hactions machine (some ⟨_, _⟩)) fun xs => ?_
    exact hset { w.side b with scheduledAction := xs }
  | updateTimer duration replace machine =>
    have hcurrent : at? ((w.side b).later c).scheduledInternalTimer machine = _ :=
      at?_map (Option.map (· + c)) (w.side b).scheduledInternalTimer machine
    have hend : (w.later c).currentTime + duration = w.currentTime + duration + c := by
      simp only [later]
      lia
    refine bind_carried hcurrent fun current => ?_
    have hlt : (current.map (· + c)).getD (w.later c).currentTime <
        w.currentTime + duration + c ↔ current.getD w.currentTime < w.currentTime + duration := by
      cases current with
      | none => exact add_lt_add_iff_right c
      | some t => exact add_lt_add_iff_right c
    let begun : SimEvent := {
      client := b, event := .timerBegin machine, time := w.currentTime
      integrationDelay := 0, bypass := false, replace := false, containsPadding := false }
    rw [hend]
    simp only [hlt]
    split
    · refine bind_carried (htimers machine (some _)) fun ts => congrArg pure ?_
      let s := { w.side b with scheduledInternalTimer := ts }
      exact (congrArg (fun v => pushSim v (begun.later c)) (w.later_setSide c b s)).trans
        (later_pushSim c (w.setSide b s) begun)
    · rfl

theorem later_triggerUpdate [RngCore R] (w : Sim R G) (e : SimEvent) :
    (w.later c).triggerUpdate (e.later c) = (w.triggerUpdate e).map (later c) := by
  have hside : (w.later c).side e.client = (w.side e.client).later c := w.later_side c e.client
  obtain ⟨⟨x, g⟩, hx⟩ : ∃ r, (w.side e.client).triggerDelay w.rng = r := ⟨_, rfl⟩
  have hx' : ((w.later c).side (e.later c).client).triggerDelay (w.later c).rng = (x, g) := by
    rw [show (w.later c).side (e.later c).client = _ from hside]
    exact hx
  unfold triggerUpdate
  dsimp only
  rw [hx, hx', show (w.later c).side (e.later c).client = _ from hside]
  refine bind_carried ((TimeMap.later c).framework_triggerEvents _ [e.event] w.currentTime)
    fun r => ?_
  have hactions : r.1.map (TriggerAction.map (TimeMap.later c).duration) = r.1 :=
    (List.map_congr_left fun a _ => a.map_id).trans (List.map_id _)
  let s := { w.side e.client with framework := r.2 }
  dsimp only
  rw [hactions]
  exact (congrArg (fun v : Sim R G => r.1.foldlM (applyAction e.client x) { v with rng := g })
    (w.later_setSide c e.client s)).trans
      (foldlM_carried (later_applyAction c · e.client x ·) r.1
        { w.setSide e.client s with rng := g })

theorem later_record (args : SimulatorArgs G) (w : Sim R G) (e : SimEvent) (activity : Bool) :
    (w.later c).record args (e.later c) activity = (w.record args e activity).later c := by
  unfold record
  rw [SimEvent.later_adjusted]
  change (if (_ && (_ || e.client)) = true then _ else _) = _
  split
  · simp only [later, List.map_append, List.map_cons, List.map_nil]
  · rfl

theorem later_iterate [RngCore R] (args : SimulatorArgs G) (w : Sim R G) (e : SimEvent) :
    (w.later c).iterate args (e.later c) =
      (w.iterate args e).map fun r => (r.1, r.2.later c) := by
  have hlt : (e.later c).time < (w.later c).currentTime ↔ e.time < w.currentTime := by
    simp only [SimEvent.later, later]
    lia
  unfold iterate
  simp only [hlt]
  split
  · rfl
  refine bind_carried (later_simNetworkStack c { w with currentTime := e.time } e) fun r => ?_
  refine bind_carried (later_triggerUpdate c r.2 e) fun w => ?_
  have hnoted : ((w.later c).record args (e.later c) r.1).note (.processed (e.later c)) =
      ((w.record args e r.1).note (.processed e)).later c := by
    rw [later_record]
    exact later_note c (w.record args e r.1) (.processed e)
  dsimp only
  rw [hnoted]
  generalize (w.record args e r.1).note (.processed e) = w
  have hlen : (w.later c).trace.length = w.trace.length := List.length_map _
  have hnormal : (w.later c).sq.noNormalPackets = w.sq.noNormalPackets :=
    w.sq.later_noNormalPackets c
  rw [hlen]
  split
  · rfl
  rw [hnormal, show (w.later c).simIterations = w.simIterations from rfl]
  split
  · rfl
  · split <;> rfl

theorem SimState.later_new [RngCore R] (machines : List Machine) (t : Instant)
    (padding blocking : F64) (integration : Option (Integration G)) (rng : R) :
    SimState.new machines (t + c) padding blocking integration rng =
      (SimState.new machines t padding blocking integration rng).map (SimState.later c) := by
  refine bind_carried ((TimeMap.later c).framework_new machines padding blocking t rng) fun f => ?_
  cases f with
  | error e => rfl
  | ok f => simp [Except.map, pure, Except.pure, SimState.later]

theorem later_start [RngCore R] (machinesClient machinesServer : List Machine) (sq : SimQueue)
    (args : SimulatorArgs G) (rngClient rngServer : R) (rng : G) :
    Sim.start machinesClient machinesServer (sq.later c) args rngClient rngServer rng =
      (Sim.start machinesClient machinesServer sq args rngClient rngServer rng).map (later c) := by
  unfold start
  rw [SimQueue.later_getFirstTime]
  refine bind_carried (unwrap_map _ _) fun t => ?_
  refine bind_carried (SimState.later_new c _ _ _ _ _ _) fun client => ?_
  refine bind_carried (SimState.later_new c _ _ _ _ _ _) fun server => ?_
  have hnew : NetworkBottleneck.new args.network (Duration.fromMillis 1000) (sq.later c).maxPps =
      (NetworkBottleneck.new args.network (Duration.fromMillis 1000) sq.maxPps).map
        (NetworkBottleneck.later c) := by
    unfold NetworkBottleneck.new
    rw [show (sq.later c).maxPps = sq.maxPps from rfl]
    dsimp only
    split
    · rfl
    · simp only [Except.map, NetworkBottleneck.later, BinaryHeap.map_new, WindowCount.later,
        WindowCount.new, List.map_nil]
  exact bind_carried hnew fun n => rfl

end Sim

def Config.later : Config R G → Config R G
  | .picking w => .picking (w.later c)
  | .returned e w => .returned (e.later c) (w.later c)
  | .done w => .done (w.later c)

namespace Config

theorem later_next [RngCore R] (args : SimulatorArgs G) (k : Config R G) :
    (k.later c).next args = (k.next args).map (later c) := by
  cases k with
  | picking w =>
    refine bind_carried (w.later_pickStep c) fun r => ?_
    obtain ⟨pick, w⟩ := r
    cases pick with
    | again => rfl
    | found e => cases e <;> rfl
  | returned e w =>
    refine bind_carried (w.later_iterate c args e) fun r => ?_
    change pure (if r.1 = true then _ else _) = Except.map _ (pure (if r.1 = true then _ else _))
    split <;> rfl
  | done w => rfl

theorem later_run [RngCore R] (args : SimulatorArgs G) (fuel : Nat) (k : Config R G) :
    (k.later c).run args fuel = (k.run args fuel).map (Sim.later c) := by
  induction fuel generalizing k with
  | zero => cases k <;> rfl
  | succ fuel ih =>
    cases k with
    | done w => rfl
    | picking w => exact bind_carried (later_next c args (.picking w)) ih
    | returned e w => exact bind_carried (later_next c args (.returned e w)) ih

end Config

theorem mergeSort_later (es : List SimEvent) :
    (es.map (SimEvent.later c)).mergeSort (fun a b => decide (a.time ≤ b.time)) =
      (es.mergeSort fun a b => decide (a.time ≤ b.time)).map (SimEvent.later c) := by
  refine (List.map_mergeSort fun a _ b _ => ?_).symm
  simp only [SimEvent.later, add_le_add_iff_right]

theorem simAdvanced_later [RngCore R] (machinesClient machinesServer : List Machine)
    (sq : SimQueue) (args : SimulatorArgs G) (rngClient rngServer : R) (rng : G) (fuel : Nat) :
    simAdvanced machinesClient machinesServer (sq.later c) args rngClient rngServer rng fuel =
      (simAdvanced machinesClient machinesServer sq args rngClient rngServer rng fuel).map
        (List.map (SimEvent.later c)) := by
  refine bind_carried (Sim.later_start c _ _ _ _ _ _ _) fun w => ?_
  refine bind_carried (Config.later_run c args fuel (.picking w)) fun w => ?_
  exact congrArg pure (mergeSort_later c w.trace)

end Loop

section Trace

variable {G : Type} (c : Int)

def Parsed.later (p : Parsed G) : Parsed G where
  sq := p.sq.later c
  sentWindow := p.sentWindow.later c
  recvWindow := p.recvWindow.later c
  sentMaxPps := p.sentMaxPps
  recvMaxPps := p.recvMaxPps
  rng := p.rng

namespace Parsed

theorem later_sent (p : Parsed G) (client : Option (Integration G)) (t : Instant) :
    (p.later c).sent client (t + c) = (p.sent client t).later c := by
  obtain ⟨⟨x, g⟩, hx⟩ : ∃ r, draw client p.rng = r := ⟨_, rfl⟩
  have hx' : draw client (p.later c).rng = (x, g) := hx
  have htime : t + c + x = t + x + c := add_right_comm t c x
  unfold sent
  rw [hx, hx']
  dsimp only
  rw [htime]
  simp only [later, WindowCount.later_add, SimQueue.later_push]

theorem later_received (p : Parsed G) (network : Network) (server : Option (Integration G))
    (t : Instant) :
    (p.later c).received network server (t + c) = (p.received network server t).later c := by
  obtain ⟨⟨x, g⟩, hx⟩ : ∃ r, draw server p.rng = r := ⟨_, rfl⟩
  have hx' : draw server (p.later c).rng = (x, g) := hx
  have htime : t + c - network.delay + x = t - network.delay + x + c := by lia
  unfold received
  rw [hx, hx']
  dsimp only
  rw [htime]
  simp only [later, WindowCount.later_add, SimQueue.later_push]

theorem later_line (network : Network) (client server : Option (Integration G)) (t : Instant)
    (p : Parsed G) (l : List Char) :
    line network client server (t + c) (p.later c) l =
      (line network client server t p l).map (later c) := by
  unfold line
  cases l.splitOn ',' with
  | nil => rfl
  | cons time rest =>
    cases rest with
    | nil => rfl
    | cons direction rest =>
      refine bind_alike fun n => ?_
      have htime : t + c + (n : Nat) = t + n + c := add_right_comm t c n
      dsimp only
      rw [htime, later_sent, later_received]
      simp only [apply_ite (Except.map (later c))]
      rfl

end Parsed

theorem parseTraceAdvanced_later (trace : List Char) (network : Network)
    (client server : Option (Integration G)) (t : Instant) (rng : G) :
    parseTraceAdvanced trace network client server (t + c) rng =
      (parseTraceAdvanced trace network client server t rng).map (SimQueue.later c) := by
  let window := WindowCount.new (Duration.fromMillis 100)
  let start : Parsed G := ⟨.new, window, window, 0, 0, rng⟩
  have hstart : start.later c = start := by
    simp only [start, window, Parsed.later, SimQueue.later, SimQueue.new, EventQueue.later,
      EventQueue.new, BinaryHeap.map_new, WindowCount.later, WindowCount.new, List.map_nil]
  have hlines := foldlM_carried (Parsed.later_line c network client server t) (lines trace) start
  rw [hstart] at hlines
  exact bind_carried hlines fun p => rfl

end Trace

end Maybenot

import Mathlib.Algebra.BigOperators.Group.Multiset.Basic
import Mathlib.Data.Multiset.OrderedMonoid
import Maybenot.Proofs.Deadlines

namespace Maybenot
open Lib

namespace SimQueue

theorem base_pushSim {sq : SimQueue} {e : SimEvent} (he : e.event ≠ .normalSent) (c : Bool) :
    ((sq.pushSim e).side c).base = (sq.side c).base :=
  (sq.heap_pushSim e c .base).trans (if_neg fun h => he (EventQueue.home_base h.2.symm))

theorem base_popped (sq : SimQueue) {k : Queue} (hk : k ≠ .base) (c c' : Bool) :
    ((sq.popped k c).side c').base = (sq.side c').base :=
  (sq.heap_popped k .base c c').trans (if_neg fun h => hk h.2.symm)

theorem base_foldl {es : List SimEvent} (hes : ∀ e ∈ es, e.event ≠ .normalSent) (sq : SimQueue)
    (c : Bool) : ((es.foldl pushSim sq).side c).base = (sq.side c).base := by
  induction es generalizing sq with
  | nil => rfl
  | cons e es ih =>
    rw [List.foldl_cons, ih fun y hy => hes y (List.mem_cons_of_mem _ hy)]
    exact base_pushSim (hes e List.mem_cons_self) c

/-- No base event is before the first time of a trace. -/
theorem getFirstTime_le {sq : SimQueue} {t : Instant} (h : sq.getFirstTime = some t) {c : Bool}
    {y : SimEvent} (hy : y ∈ (sq.side c).base.items) : t ≤ y.time := by
  have hpeek {c : Bool} (hy : y ∈ (sq.side c).base.items) :
      ∃ x, (sq.side c).base.peek = some x ∧ x.time ≤ y.time := by
    cases hp : (sq.side c).base.peek with
    | none => exact absurd hy (by simp [BinaryHeap.peek_none.mp hp])
    | some x => exact ⟨x, rfl, peek_time hp y hy⟩
  obtain ⟨x, hx, hle⟩ := hpeek hy
  unfold getFirstTime EventQueue.getFirstBaseTime at h
  cases c with
  | true =>
    rw [show sq.client.base.peek = some x from hx] at h
    cases hs : sq.server.base.peek with
    | none =>
      simp only [hs, Option.map_some, Option.map_none, Option.some.injEq] at h
      lia
    | some z =>
      simp only [hs, Option.map_some, Option.some.injEq] at h
      lia
  | false =>
    rw [show sq.server.base.peek = some x from hx] at h
    cases hs : sq.client.base.peek with
    | none =>
      simp only [hs, Option.map_some, Option.map_none, Option.some.injEq] at h
      lia
    | some z =>
      simp only [hs, Option.map_some, Option.some.injEq] at h
      lia

end SimQueue

namespace Sim

variable {R G : Type}

/-- The base events of a side that are still to be sent. -/
def base (w : Sim R G) (c : Bool) : BinaryHeap SimEvent := (w.sq.side c).base

theorem sends_base {w w' : Sim R G} {e : SimEvent} {a : Bool} (h : Sends w e a w') (c : Bool) :
    w'.base c = w.base c := by
  cases h with
  | normal he => exact SimQueue.base_pushSim (by simp [SimEvent.tunnelSent]) c
  | kept he hr hb hq => rfl
  | @swapped _ queued k _ he hr hb hq hn =>
    have hk : k ≠ .base := by
      rcases (peekBlocking_ok hq.1).2 with rfl | ⟨_, rfl⟩ <;> simp
    have hqueued : ({ queued with bypass := true, replace := false } : SimEvent).event ≠
        .normalSent := by
      rw [hq.2.2.1]
      simp
    exact (SimQueue.base_pushSim hqueued c).trans (w.sq.base_popped hk e.client c)
  | padded he hq => exact SimQueue.base_pushSim (by simp [SimEvent.tunnelSent]) c
  | sent he => exact SimQueue.base_pushSim (by simp) c
  | received he =>
    refine SimQueue.base_pushSim ?_ c
    dsimp only
    split <;> simp
  | apart he => rfl

theorem iterates_base [RngCore R] {args : SimulatorArgs G} {w w' : Sim R G} {e : SimEvent}
    (h : Iterates args w e w') (c : Bool) : w'.base c = w.base c := by
  obtain ⟨a, w1, hs, ⟨ms, hms⟩, _⟩ := Config.iterates_queue h
  unfold base
  rw [hms, SimQueue.base_foldl]
  · exact sends_base hs c
  · intro y hy
    obtain ⟨m, _, rfl⟩ := List.mem_map.mp hy
    simp [timerBegun]

/-- A base event that is not past is not before the wait chosen, with the delays so far. -/
theorem base_after {w : Sim R G} (hwf : w.sq.WellFormed) {x : Wait} {k : Queue} {c' : Bool}
    (hq : w.queueWait = .ok (x, k, c')) {d : Duration} (hx : d ≤ x) (hother : d ≤ w.otherWait)
    {c : Bool} {y : SimEvent} (hy : y ∈ (w.base c).items)
    (hnow : w.currentTime ≤ y.time + w.network.aggregateBaseDelay c) :
    w.currentTime + d ≤ y.time + w.network.aggregateBaseDelay c := by
  have hle := chosen_le hwf hq hx hother (j := .base) hy (by simp)
  have hwait : w.view.wait c .base y =
      Instant.durationSince (y.time + w.network.aggregateBaseDelay c) w.currentTime := rfl
  rw [hwait] at hle
  unfold Instant.durationSince at hle
  lia

end Sim

/-- What some delays add up to for a side. -/
def total (c : Bool) (ds : Multiset PendingAggregateDelay) : Duration :=
  ((ds.filter (·.client = c)).map (·.delay)).sum

/-- What those delays add up to for a side that have taken effect by a time. -/
def effective (c : Bool) (t : Instant) (ds : Multiset PendingAggregateDelay) : Duration :=
  total c (ds.filter (·.time ≤ t))

theorem total_add (c : Bool) (ds ds' : Multiset PendingAggregateDelay) :
    total c (ds + ds') = total c ds + total c ds' := by
  unfold total
  rw [Multiset.filter_add, Multiset.map_add, Multiset.sum_add]

theorem total_cons (c : Bool) (d : PendingAggregateDelay) (ds : Multiset PendingAggregateDelay) :
    total c (d ::ₘ ds) = (if d.client = c then d.delay else 0) + total c ds := by
  unfold total
  rw [Multiset.filter_cons]
  split <;> simp

/-- A delay that takes effect moves all base events of its side from then on. -/
theorem popAggregateDelay_spec {n : NetworkBottleneck} {d : PendingAggregateDelay}
    (h : n.aggregateDelayQueue.peek = some d) :
    n.aggregateDelayQueue.items = d ::ₘ n.popAggregateDelay.aggregateDelayQueue.items ∧
      ∀ c, n.popAggregateDelay.aggregateBaseDelay c =
        n.aggregateBaseDelay c + if d.client = c then d.delay else 0 := by
  have hpop : n.aggregateDelayQueue.pop = (some d, n.aggregateDelayQueue.pop.2) :=
    Prod.ext ((BinaryHeap.pop_fst _).trans h) rfl
  obtain ⟨t, x, client⟩ := d
  refine ⟨(BinaryHeap.items_pop h).trans ?_, fun c => ?_⟩
  · unfold NetworkBottleneck.popAggregateDelay
    rw [hpop]
    cases client <;> rfl
  · unfold NetworkBottleneck.popAggregateDelay
    rw [hpop]
    cases client <;> cases c <;> rfl

/-- What a call is to do: its duration counts once at the client and once at the server, from
when the blocked packets get there. -/
def DelayPush.effects (network : Network) (p : DelayPush) : Multiset PendingAggregateDelay :=
  let d := network.sample
  let b := p.blockDuration
  let (client, server) := if p.clientExpiry then (4 * d - b, 3 * d - b) else (d - b, 4 * d - b)
  {⟨p.currentTime + client, b, true⟩, ⟨p.currentTime + server, b, false⟩}

/-- What all calls so far are to do. -/
def NetworkBottleneck.pushed (n : NetworkBottleneck) : Multiset PendingAggregateDelay :=
  (n.pushes : Multiset DelayPush).bind (·.effects n.network)

theorem total_effects (c : Bool) (network : Network) (p : DelayPush) :
    total c (p.effects network) = p.blockDuration := by
  unfold DelayPush.effects
  cases c <;> simp [total, Multiset.filter_singleton]

/-- Each call counts with its duration at either side. -/
theorem total_pushed (c : Bool) (n : NetworkBottleneck) :
    total c n.pushed = (n.pushes.map (·.blockDuration)).sum := by
  unfold NetworkBottleneck.pushed
  induction n.pushes with
  | nil => rfl
  | cons p ps ih =>
    rw [← Multiset.cons_coe, Multiset.cons_bind, total_add, total_effects, ih, List.map_cons,
      List.sum_cons]

theorem NetworkBottleneck.new_pushes {network : Network} {window : Duration}
    {queuePps : Option Nat} {n : NetworkBottleneck}
    (h : NetworkBottleneck.new network window queuePps = .ok n) : n.pushes = [] := by
  unfold NetworkBottleneck.new at h
  dsimp only at h
  split at h
  · exact absurd h (by simp)
  · obtain rfl := Except.ok.inj h
    rfl

theorem pushed_of_delays {n n' : NetworkBottleneck} (h : n'.delays = n.delays) :
    n'.pushed = n.pushed := by
  unfold NetworkBottleneck.pushed
  rw [NetworkBottleneck.delays_pushes h, NetworkBottleneck.delays_network h]

/-- A call adds what it is to do to what waits. -/
theorem pushAggregateDelay_pushed (n : NetworkBottleneck) (d : Duration) (t : Instant) (c : Bool) :
    (n.pushAggregateDelay d t c).pushed = DelayPush.effects n.network ⟨d, t, c⟩ + n.pushed ∧
      (n.pushAggregateDelay d t c).aggregateDelayQueue.items =
        DelayPush.effects n.network ⟨d, t, c⟩ + n.aggregateDelayQueue.items := by
  constructor
  · change ((n.pushes ++ [⟨d, t, c⟩] : List DelayPush) : Multiset DelayPush).bind _ = _
    rw [← Multiset.coe_add, Multiset.add_bind, Multiset.coe_singleton, Multiset.singleton_bind,
      add_comm]
    rfl
  · unfold DelayPush.effects
    cases c <;> simp [NetworkBottleneck.pushAggregateDelay, Multiset.cons_swap]

/-- What the calls are to do is what still waits and what was applied to the base events. -/
structure Applied (n : NetworkBottleneck) (applied : Multiset PendingAggregateDelay) : Prop where
  split : n.pushed = n.aggregateDelayQueue.items + applied
  sum : ∀ c, n.aggregateBaseDelay c = total c applied

theorem Applied.pushes {n n' : NetworkBottleneck} {applied : Multiset PendingAggregateDelay}
    {t : Instant} {c : Bool} (h : Applied n applied) (hp : Prolongs n t c n') :
    Applied n' applied := by
  rcases hp with hn | ⟨d, hn⟩
  · refine ⟨?_, fun c => (NetworkBottleneck.delays_base hn c).trans (h.sum c)⟩
    rw [pushed_of_delays hn, h.split, NetworkBottleneck.delays_queue hn]
  · obtain ⟨hpushed, hitems⟩ := pushAggregateDelay_pushed n d t c
    refine ⟨?_, fun c' => ?_⟩
    · rw [pushed_of_delays hn, hpushed, h.split, NetworkBottleneck.delays_queue hn, hitems,
        add_assoc]
    · exact (NetworkBottleneck.delays_base hn c').trans
        ((Sim.pushAggregateDelay_base n d t c c').trans (h.sum c'))

theorem popAggregateDelay_pushed (n : NetworkBottleneck) :
    n.popAggregateDelay.pushed = n.pushed := by
  unfold NetworkBottleneck.popAggregateDelay
  split
  · split <;> rfl
  · rfl

theorem Applied.pop {n : NetworkBottleneck} {applied : Multiset PendingAggregateDelay}
    {d : PendingAggregateDelay} (h : Applied n applied)
    (hd : n.aggregateDelayQueue.peek = some d) : Applied n.popAggregateDelay (d ::ₘ applied) := by
  obtain ⟨hitems, hbase⟩ := popAggregateDelay_spec hd
  refine ⟨?_, fun c => ?_⟩
  · rw [popAggregateDelay_pushed, h.split, hitems, Multiset.cons_add, Multiset.add_cons]
  · rw [hbase, h.sum, total_cons, Nat.add_comm]

/-- By the time of an event that is picked, all applied delays and no others have taken
effect. -/
theorem Applied.effective {n : NetworkBottleneck} {applied : Multiset PendingAggregateDelay}
    {t : Instant} (h : Applied n applied) (hdue : ∀ d ∈ applied, d.time ≤ t)
    (hwait : ∀ d ∈ n.aggregateDelayQueue.items, t < d.time) (c : Bool) :
    effective c t n.pushed = n.aggregateBaseDelay c := by
  unfold Maybenot.effective
  have hnone : n.aggregateDelayQueue.items.filter (·.time ≤ t) = 0 :=
    Multiset.filter_eq_nil.mpr fun d hd => not_le.mpr (hwait d hd)
  rw [h.split, Multiset.filter_add, hnone, zero_add, Multiset.filter_eq_self.mpr hdue, h.sum]

namespace Config
open Sim

variable {R G : Type}

/-- A base event as it was queued and as it was sent, with what all calls of
`pushAggregateDelay` before that were to do. -/
structure Shift where
  base : SimEvent
  sent : SimEvent
  pushed : Multiset PendingAggregateDelay

/-- The delays that had taken effect at the side of the event when it was sent. -/
def Shift.delay (s : Shift) : Duration := effective s.sent.client s.sent.time s.pushed

/-- The base events that each side has sent so far. -/
abbrev Ledger := Bool → List Shift

/-- A base event that side `c` sends. -/
def BaseSent (c : Bool) (e : SimEvent) : Prop := e.event = .normalSent ∧ e.client = c

instance (c : Bool) (e : SimEvent) : Decidable (BaseSent c e) := inferInstanceAs (Decidable (_ ∧ _))

/-- The ledger after a step: a base event that was picked was first in its heap. -/
def Ledger.after (l : Ledger) (cfg cfg' : Config R G) : Ledger := fun c =>
  l c ++ match cfg, cfg' with
    | .picking w, .returned e _ =>
      if BaseSent c e then (w.base c).peek.toList.map fun b => ⟨b, e, w.network.pushed⟩ else []
    | _, _ => []

/-- The base events that a side has sent, in order, that in hand included. -/
def normals (c : Bool) : Config R G → List SimEvent
  | .returned e w => (processedEvents w.log ++ [e]).filter (BaseSent c)
  | .picking w | .done w => (processedEvents w.log).filter (BaseSent c)

/-- The invariant of base traffic, for a run on the queue `sq`. -/
structure Shifted (sq : SimQueue) (cfg : Config R G) (l : Ledger) : Prop where
  late : ∀ c, ∀ y ∈ (cfg.sim.base c).items,
    cfg.now ≤ y.time + cfg.sim.network.aggregateBaseDelay c
  applied : ∃ applied, Applied cfg.sim.network applied ∧ ∀ d ∈ applied, ∀ c,
    ∀ y ∈ (cfg.sim.base c).items, d.time ≤ y.time + cfg.sim.network.aggregateBaseDelay c
  sent : ∀ c, cfg.normals c = (l c).map (·.sent)
  bases : ∀ c, ((l c).map (·.base) : Multiset SimEvent) + (cfg.sim.base c).items =
    (sq.side c).base.items
  shifts : ∀ c, ∀ s ∈ l c, s.sent.time = s.base.time + s.delay ∧
    s.delay ≤ cfg.sim.network.aggregateBaseDelay c ∧
      ∀ y ∈ (cfg.sim.base c).items, s.base.time ≤ y.time
  sorted : ∀ c, (l c).Pairwise fun s s' =>
    s.base.time ≤ s'.base.time ∧ s.delay ≤ s'.delay

/-- A step that takes no base event and applies no delay. -/
theorem Shifted.quiet {sq : SimQueue} {cfg cfg' : Config R G} {l : Ledger} {t : Instant}
    {b : Bool} (h : Shifted sq cfg l) (hbase : ∀ c, cfg'.sim.base c = cfg.sim.base c)
    (hn : Prolongs cfg.sim.network t b cfg'.sim.network)
    (hsent : ∀ c, cfg'.normals c = cfg.normals c)
    (hlate : ∀ c, ∀ y ∈ (cfg.sim.base c).items,
      cfg'.now ≤ y.time + cfg.sim.network.aggregateBaseDelay c)
    (hshifts : l.after cfg cfg' = l) : Shifted sq cfg' (l.after cfg cfg') := by
  have hagg (c : Bool) : cfg'.sim.network.aggregateBaseDelay c =
      cfg.sim.network.aggregateBaseDelay c := by
    rcases hn with hn | ⟨d, hn⟩
    · exact NetworkBottleneck.delays_base hn c
    · exact (NetworkBottleneck.delays_base hn c).trans (pushAggregateDelay_base _ d t b c)
  obtain ⟨applied, happlied, hdue⟩ := h.applied
  refine ⟨?_, ⟨applied, happlied.pushes hn, ?_⟩, ?_, ?_, ?_, ?_⟩
  · intro c y hy
    rw [hbase] at hy
    rw [hagg]
    exact hlate c y hy
  · intro d hd c y hy
    rw [hbase] at hy
    rw [hagg]
    exact hdue d hd c y hy
  · intro c
    rw [hsent, hshifts]
    exact h.sent c
  · intro c
    rw [hbase, hshifts]
    exact h.bases c
  · intro c s hs
    rw [hshifts] at hs
    rw [hbase, hagg]
    exact h.shifts c s hs
  · intro c
    rw [hshifts]
    exact h.sorted c

theorem after_found {w w' : Sim R G} {e : SimEvent} {l : Ledger} {c : Bool}
    (he : ¬ BaseSent c e) : l.after (.picking w) (.returned e w') c = l c := by
  simp [Ledger.after, he]

/-- A round of picking that takes no base event and applies no delay. -/
theorem Shifted.quiet_pick {sq : SimQueue} {w w' : Sim R G} {p : Pick} {l : Ledger} {t : Instant}
    {b : Bool} (h : Shifted sq (.picking w) l) (hp : Picks w p w')
    (hbase : ∀ c, w'.base c = w.base c) (hn : Prolongs w.network t b w'.network)
    (hlate : ∀ c, ∀ y ∈ (w.base c).items,
      reached w.currentTime p ≤ y.time + w.network.aggregateBaseDelay c)
    (hhand : ∀ e, p = .found (some e) → e.event ≠ .normalSent) :
    Shifted sq (place w' p) (l.after (.picking w) (place w' p)) := by
  have hnot (c : Bool) (e : SimEvent) (he : p = .found (some e)) : ¬ BaseSent c e :=
    fun hb => hhand e he hb.1
  refine h.quiet (t := t) (b := b) ?_ ?_ ?_ ?_ ?_
  · rw [place_sim]
    exact hbase
  · rw [place_sim]
    exact hn
  · intro c
    rcases p with _ | ⟨_ | e⟩
    · exact congrArg (List.filter _) (picks_processedEvents hp)
    · exact congrArg (List.filter _) (picks_processedEvents hp)
    · change (processedEvents w'.log ++ [e]).filter _ = (processedEvents w.log).filter _
      rw [picks_processedEvents hp, List.filter_append, List.filter_singleton]
      simp [hnot c e rfl]
  · rw [place_now hp.kept.1]
    exact hlate
  · funext c
    rcases p with _ | ⟨_ | e⟩
    · exact List.append_nil _
    · exact List.append_nil _
    · exact after_found (hnot c e rfl)

/-- The first delay takes effect, before any base event that it is to move. -/
theorem Shifted.delayed {sq : SimQueue} {w : Sim R G} {l : Ledger} {q : Wait} {k : Queue} {c' : Bool}
    (hwf : w.sq.WellFormed) (hahead : Ahead w w.currentTime) (h : Shifted sq (.picking w) l)
    (hq : w.queueWait = .ok (q, k, c'))
    (hn : w.delayWait ≤ w.actionWait ∧ w.delayWait ≤ w.timerWait ∧
      w.delayWait ≤ w.expiryWait.1 ∧ w.delayWait ≤ q) (hne : w.delayWait ≠ ⊤) :
    Shifted sq (.picking { w with network := w.network.popAggregateDelay })
      (l.after (.picking w) (.picking { w with network := w.network.popAggregateDelay })) := by
  obtain ⟨d, hd, hwait⟩ : ∃ d, w.network.aggregateDelayQueue.peek = some d ∧
      w.delayWait = (Instant.durationSince d.time w.currentTime : Duration) := by
    unfold delayWait NetworkBottleneck.peekAggregateDelay at hne ⊢
    cases hp : w.network.aggregateDelayQueue.peek with
    | none => exact absurd (by rw [hp]) hne
    | some d => exact ⟨d, rfl, rfl⟩
  obtain ⟨hitems, hbase⟩ := popAggregateDelay_spec hd
  have hmore (c : Bool) : w.network.aggregateBaseDelay c ≤
      w.network.popAggregateDelay.aggregateBaseDelay c := by
    rw [hbase]
    exact Nat.le_add_right _ _
  obtain ⟨applied, happlied, hdue⟩ := h.applied
  refine ⟨?_, ⟨d ::ₘ applied, happlied.pop hd, ?_⟩, ?_, ?_, ?_, ?_⟩
  · intro c y hy
    have hle := h.late c y hy
    have hm := hmore c
    change w.currentTime ≤ y.time + w.network.aggregateBaseDelay c at hle
    change w.currentTime ≤ y.time + w.network.popAggregateDelay.aggregateBaseDelay c
    lia
  · intro x hx c y hy
    have hm := hmore c
    change x.time ≤ y.time + w.network.popAggregateDelay.aggregateBaseDelay c
    rcases Multiset.mem_cons.mp hx with rfl | hx
    · have hother := le_otherWait hn.1 hn.2.1 hn.2.2.1 le_rfl
      rw [hwait] at hn hother
      have hafter := base_after hwf hq hn.2.2.2 hother hy (h.late c y hy)
      have htime := hahead.delays x (BinaryHeap.peek_mem hd)
      unfold Instant.durationSince at hafter
      lia
    · have hle := hdue x hx c y hy
      change x.time ≤ y.time + w.network.aggregateBaseDelay c at hle
      lia
  · intro c
    exact (h.sent c).trans (by simp [Ledger.after])
  · intro c
    refine Eq.trans ?_ (h.bases c)
    simp [Ledger.after]
    rfl
  · intro c s hs
    obtain ⟨htime, hle, hbefore⟩ := h.shifts c s (by simpa [Ledger.after] using hs)
    exact ⟨htime, hle.trans (hmore c), hbefore⟩
  · intro c
    have hsorted := h.sorted c
    simpa [Ledger.after] using hsorted

theorem base_taken (w : Sim R G) (c c' : Bool) (s : SimStep) :
    (({ w with sq := w.sq.popped .base c } : Sim R G).note s).base c' =
      if c' = c then (w.base c').pop.2 else w.base c' := by
  have hbase := w.sq.heap_popped .base .base c c'
  simp only [and_true] at hbase
  exact hbase

theorem mem_base_taken {w : Sim R G} {c c' : Bool} {s : SimStep} {y : SimEvent}
    (hy : y ∈ ((({ w with sq := w.sq.popped .base c } : Sim R G).note s).base c').items) :
    y ∈ (w.base c').items :=
  SimQueue.mem_popped (k := .base) (j := .base) (c := c) hy

/-- A base event that is taken is sent by its side, moved by the delays applied so far. -/
theorem Shifted.taken_sent {sq : SimQueue} {w : Sim R G} {l : Ledger} {q : Duration} {c0 : Bool}
    {e queued next : SimEvent} (hwf : w.sq.WellFormed) (h : Shifted sq (.picking w) l)
    (hq : w.queueWait = .ok (↑q, .base, c0)) (hhead : (w.base c0).peek = some e)
    (hqueued : queued = e.moved .base (w.network.aggregateBaseDelay c0))
    (hnext : next = queued.forward (w.currentTime + q)) :
    BaseSent c0 next ∧ next.time = e.time + w.network.aggregateBaseDelay c0 := by
  have hmem : e ∈ (w.base c0).items := BinaryHeap.peek_mem hhead
  obtain ⟨hhome, hclient⟩ := hwf c0 .base e hmem
  obtain ⟨hev, hcl, _⟩ := picked_same hqueued hnext
  refine ⟨⟨hev.trans (EventQueue.home_base hhome), hcl.trans hclient⟩, ?_⟩
  have htime := picked_time (k := .base) hwf hq hhead hqueued hnext
  have hlate : w.currentTime ≤ e.time + w.network.aggregateBaseDelay c0 := h.late c0 e hmem
  have hwait : q = Instant.durationSince (e.time + w.network.aggregateBaseDelay c0)
    w.currentTime := queueWait_head (k := .base) hwf hq hhead
  unfold Instant.durationSince at hwait
  lia

/-- By the time that a base event is sent, all delays applied so far and no others have taken
effect. -/
theorem Shifted.taken_delay {sq : SimQueue} {w : Sim R G} {l : Ledger} {q : Duration} {c0 : Bool}
    {e next : SimEvent} (hahead : Ahead w w.currentTime) (h : Shifted sq (.picking w) l)
    (hlt : q < w.delayWait) (hmem : e ∈ (w.base c0).items) (hsent : BaseSent c0 next)
    (htime : next.time = w.currentTime + q)
    (hnow : next.time = e.time + w.network.aggregateBaseDelay c0) :
    Shift.delay ⟨e, next, w.network.pushed⟩ = w.network.aggregateBaseDelay c0 := by
  obtain ⟨applied, happlied, hdue⟩ := h.applied
  unfold Shift.delay
  rw [show next.client = c0 from hsent.2]
  refine happlied.effective (fun d hd => (hdue d hd c0 e hmem).trans_eq hnow.symm) ?_ c0
  intro d hd
  have hlater := WithTop.coe_lt_coe.mp (hlt.trans_le (delayWait_le hd))
  have hafter := hahead.delays d hd
  unfold Instant.durationSince at hlater
  lia

theorem after_taken {w w' : Sim R G} {l : Ledger} {c0 : Bool} {e next : SimEvent}
    (hhead : (w.base c0).peek = some e) (hsent : BaseSent c0 next) (c : Bool) :
    l.after (.picking w) (.returned next w') c =
      l c ++ if c = c0 then [⟨e, next, w.network.pushed⟩] else [] := by
  by_cases hc : c = c0
  · subst hc
    simp [Ledger.after, hsent, hhead]
  · have hnot : ¬ BaseSent c next := fun hb => hc (hb.2.symm.trans hsent.2)
    simp [Ledger.after, hnot, hc]

/-- The first base event of a side is sent, with the delays that have taken effect. -/
theorem Shifted.taken {sq : SimQueue} {w : Sim R G} {l : Ledger} {q : Duration} {c0 : Bool}
    {e queued next : SimEvent} (hwf : w.sq.WellFormed) (hahead : Ahead w w.currentTime)
    (h : Shifted sq (.picking w) l) (hq : w.queueWait = .ok (↑q, .base, c0))
    (hle : q ≤ w.actionWait ∧ q ≤ w.timerWait) (hlt : q < w.expiryWait.1 ∧ q < w.delayWait)
    (hhead : (w.base c0).peek = some e)
    (hqueued : queued = e.moved .base (w.network.aggregateBaseDelay c0))
    (hnext : next = queued.forward (w.currentTime + q)) {w' : Sim R G}
    (hw' : w' = ({ w with sq := w.sq.popped .base c0 }).note (.picked queued next)) :
    Shifted sq (.returned next w') (l.after (.picking w) (.returned next w')) := by
  have hother := le_otherWait hle.1 hle.2 hlt.1.le hlt.2.le
  have htime := picked_time (k := .base) hwf hq hhead hqueued hnext
  have hmem : e ∈ (w.base c0).items := BinaryHeap.peek_mem hhead
  obtain ⟨hsent, hnow⟩ := h.taken_sent hwf hq hhead hqueued hnext
  have hdelay := h.taken_delay hahead hlt.2 hmem hsent htime hnow
  have hnet : w'.network = w.network := by rw [hw']; rfl
  have hbase (c : Bool) : w'.base c = if c = c0 then (w.base c).pop.2 else w.base c :=
    hw' ▸ base_taken w c0 c _
  have hsub (c : Bool) (y : SimEvent) (hy : y ∈ (w'.base c).items) : y ∈ (w.base c).items :=
    mem_base_taken (hw' ▸ hy)
  have hshifts (c : Bool) : l.after (.picking w) (.returned next w') c =
      l c ++ if c = c0 then [⟨e, next, w.network.pushed⟩] else [] := after_taken hhead hsent c
  obtain ⟨applied, happlied, hdue⟩ := h.applied
  refine ⟨?_, ⟨applied, ?_, ?_⟩, ?_, ?_, ?_, ?_⟩
  · intro c y hy
    have hafter := base_after hwf hq le_rfl hother (hsub c y hy) (h.late c y (hsub c y hy))
    rw [← htime] at hafter
    change next.time ≤ y.time + w'.network.aggregateBaseDelay c
    exact hnet ▸ hafter
  · exact hnet.symm ▸ happlied
  · intro d hd c y hy
    have hle := hdue d hd c y (hsub c y hy)
    change d.time ≤ y.time + w'.network.aggregateBaseDelay c
    exact hnet ▸ hle
  · intro c
    have hlog : processedEvents w'.log = processedEvents w.log := by
      rw [hw']
      exact (processedEvents_append w.log _).trans (List.append_nil _)
    change (processedEvents w'.log ++ [next]).filter _ = _
    have hold : (processedEvents w.log).filter (BaseSent c) = (l c).map (·.sent) := h.sent c
    rw [hlog, List.filter_append, hold, hshifts, List.map_append]
    by_cases hc : c = c0
    · subst hc
      simp [hsent]
    · have hnot : ¬ BaseSent c next := fun hb => hc (hb.2.symm.trans hsent.2)
      simp [hnot, hc]
  · intro c
    have hold := h.bases c
    change _ + (w.base c).items = _ at hold
    rw [hshifts]
    change _ + (w'.base c).items = _
    rw [hbase, ← hold]
    by_cases hc : c = c0
    · subst hc
      rw [if_pos rfl, if_pos rfl, BinaryHeap.items_pop hhead, List.map_append, ← Multiset.coe_add,
        ← Multiset.singleton_add]
      exact (add_assoc _ _ _)
    · rw [if_neg hc, if_neg hc, List.append_nil]
  · intro c s hs
    rw [hshifts] at hs
    change _ ∧ s.delay ≤ w'.network.aggregateBaseDelay c ∧ ∀ y ∈ (w'.base c).items, _
    rw [hnet]
    rcases List.mem_append.mp hs with hs | hs
    · obtain ⟨h1, h2, h3⟩ := h.shifts c s hs
      exact ⟨h1, h2, fun y hy => h3 y (hsub c y hy)⟩
    · obtain ⟨rfl, rfl⟩ := List.mem_ite_nil_right.mp hs |>.imp_right List.mem_singleton.mp
      rw [hdelay]
      exact ⟨hnow, le_rfl, fun y hy => peek_time hhead y (hsub c y hy)⟩
  · intro c
    rw [hshifts, List.pairwise_append]
    refine ⟨h.sorted c, ?_, ?_⟩
    · split <;> simp
    · intro s hs s' hs'
      obtain ⟨rfl, rfl⟩ := List.mem_ite_nil_right.mp hs' |>.imp_right List.mem_singleton.mp
      obtain ⟨_, hle, hbefore⟩ := h.shifts c s hs
      exact ⟨hbefore e hmem, hle.trans_eq hdelay.symm⟩

theorem Shifted.picks {sq : SimQueue} {w w' : Sim R G} {p : Pick} {l : Ledger}
    (hwf : w.sq.WellFormed) (hahead : Ahead w w.currentTime) (h : Shifted sq (.picking w) l)
    (hp : Picks w p w') : Shifted sq (place w' p) (l.after (.picking w) (place w' p)) := by
  have hset (c c' : Bool) (s : SimState R G) : (w.setSide c s).base c' = w.base c' := by
    cases c <;> rfl
  cases hp with
  | nothing hq hs hi hb hn =>
    exact h.quiet_pick (t := 0) (b := true) (.nothing hq hs hi hb hn) (fun _ => rfl) (.inl rfl)
      h.late (by simp)
  | delayed hq hn hne => exact h.delayed hwf hahead hq hn hne
  | @expiredLater _ _ _ c g b delay hq hb hle hn hd hpos =>
    refine h.quiet_pick (.expiredLater hq hb hle hn hd hpos) ?_
      (expiryDelay_prolongs w c (w.currentTime + b)) h.late (by simp)
    intro c'
    exact (SimQueue.base_pushSim (by simp [blockingEnded]) c').trans (hset c c' _)
  | @expiredNow _ _ _ c g next b hq hb hle hn hd hnext =>
    refine h.quiet_pick (.expiredNow hq hb hle hn hd hnext) (hset c · _)
      (expiryDelay_prolongs w c (w.currentTime + b)) ?_ (by simp [hnext, blockingEnded])
    intro c' y hy
    have hother := le_otherWait hle.1 hle.2.1 (congrArg Prod.fst hb).ge hn.le
    have hafter := base_after hwf hq hle.2.2 hother hy (h.late c' y hy)
    have htime : next.time = w.currentTime + (b : Int) + (0 : Nat) := by rw [hnext]; rfl
    change next.time ≤ _
    lia
  | @queued k c e queued next q hq hle hlt hhead hqueued hnext =>
    by_cases hk : k = .base
    · subst hk
      exact h.taken hwf hahead hq hle hlt hhead hqueued hnext rfl
    · refine h.quiet_pick (t := 0) (b := true) (.queued hq hle hlt hhead hqueued hnext)
        (fun c' => w.sq.base_popped hk c c') (.inl rfl) ?_ ?_
      · intro c' y hy
        have hother := le_otherWait hle.1 hle.2 hlt.1.le hlt.2.le
        have hafter := base_after hwf hq le_rfl hother hy (h.late c' y hy)
        rw [← picked_time hwf hq hhead hqueued hnext] at hafter
        exact hafter
      · intro e' he' hnormal
        obtain rfl := Option.some.inj (Pick.found.inj he')
        obtain ⟨hhome, _⟩ := hwf c k e (BinaryHeap.peek_mem hhead)
        rw [(picked_same hqueued hnext).1] at hnormal
        exact hk (hhome.symm.trans (by simp [SimEvent.home, hnormal]))
  | @timer _ _ _ c machine u timers i hq hi hle hlt hdue =>
    refine h.quiet_pick (t := 0) (b := true) (.timer hq hi hle hlt hdue) ?_
      (.inl (congrArg NetworkBottleneck.delays (setSide_network ..))) h.late
      (by simp)
    intro c'
    exact (SimQueue.base_pushSim (by simp) c').trans (hset c c' _)
  | @padding _ _ _ c _ a actions _ _ _ _ _ g s hq hs hlt hdue ha hd =>
    refine h.quiet_pick (t := 0) (b := true) (.padding hq hs hlt hdue ha hd) ?_
      (.inl (congrArg NetworkBottleneck.delays (setSide_network ..))) h.late
      (by simp)
    intro c'
    exact (SimQueue.base_pushSim (by simp) c').trans (hset c c' _)
  | @block _ _ _ c _ a actions _ duration bypass replace m _ _ _ g x s hq hs hlt hdue ha hd hd' hx =>
    refine h.quiet_pick (t := 0) (b := true) (.block hq hs hlt hdue ha hd hd' hx) ?_
      (.inl (congrArg NetworkBottleneck.delays (setSide_network ..))) h.late
      (by simp)
    intro c'
    exact (SimQueue.base_pushSim (by simp [blockingBegun]) c').trans (hset c c' _)

variable [RngCore R]

/-- An iteration pushes at most one delay, after the time of its event. -/
theorem Shifted.iterates {args : SimulatorArgs G} {sq : SimQueue} {w w' : Sim R G} {e : SimEvent}
    {stop : Bool} {cfg : Config R G} {l : Ledger} (h : Shifted sq (.returned e w) l)
    (hit : w.iterate args e = .ok (stop, w')) (hcfg : cfg = .picking w' ∨ cfg = .done w') :
    Shifted sq cfg (l.after (.returned e w) cfg) := by
  have hiterates := (iterate_ok hit).1
  have htime : w'.currentTime = e.time := (iterates_hears hiterates true).time
  have hlate : ∀ c, ∀ y ∈ (w.base c).items,
      w'.currentTime ≤ y.time + w.network.aggregateBaseDelay c := by
    rw [htime]
    exact h.late
  have hnone (c : Bool) : l.after (.returned e w) cfg c = l c := by
    rcases hcfg with rfl | rfl <;> exact List.append_nil _
  have hsent (c : Bool) : (processedEvents w'.log).filter (BaseSent c) =
      (processedEvents w.log ++ [e]).filter (BaseSent c) :=
    congrArg _ (iterates_processedEvents hiterates)
  rcases hcfg with rfl | rfl
  · exact h.quiet (iterates_base hiterates) (iterate_prolongs hit) hsent hlate (funext hnone)
  · exact h.quiet (iterates_base hiterates) (iterate_prolongs hit) hsent hlate (funext hnone)

/-- The runs on a queue, each with its ledger. -/
abbrev Ledgered (args : SimulatorArgs G) (sq : SimQueue) : Config R G × Ledger → Prop :=
  Reach (fun r => Begins args sq r.1 ∧ r.2 = fun _ => [])
    fun r r' => r.1.next args = .ok r'.1 ∧ r'.2 = r.2.after r.1 r'.1

theorem Ledgered.reachable {args : SimulatorArgs G} {sq : SimQueue} {r : Config R G × Ledger}
    (h : Ledgered args sq r) : Reachable args sq r.1 := by
  induction h with
  | start hs => exact .start hs.1
  | next _ hst ih => exact .next ih ⟨trivial, hst.1⟩

/-- Every place of a run has its ledger. -/
theorem Reachable.ledgered {args : SimulatorArgs G} {sq : SimQueue} {cfg : Config R G}
    (h : Reachable args sq cfg) : ∃ l, Ledgered args sq (cfg, l) := by
  induction h with
  | @start cfg hs => exact ⟨fun _ => [], .start ⟨hs, rfl⟩⟩
  | @next cfg cfg' _ hst ih =>
    obtain ⟨l, hl⟩ := ih
    exact ⟨l.after cfg cfg', .next hl ⟨hst.2, rfl⟩⟩

theorem run_shifted {args : SimulatorArgs G} {sq : SimQueue} (hwf : sq.WellFormed)
    {r : Config R G × Ledger} (h : Ledgered args sq r) : Shifted sq r.1 r.2 := by
  refine h.invariant_of (P := fun r => Shifted sq r.1 r.2) ?_ ?_
  · rintro ⟨cfg, l⟩ ⟨⟨_, _, _, _, _, w, hstart, rfl⟩, rfl⟩
    obtain ⟨hfirst, _, _, hnet, hq, _, _, _, hlog⟩ := start_ok hstart
    obtain ⟨_, hempty, hzero, _⟩ := NetworkBottleneck.new_ok hnet
    have hpushes := NetworkBottleneck.new_pushes hnet
    refine ⟨?_, ⟨0, ⟨?_, ?_⟩, by simp⟩, ?_, ?_, by simp, fun _ => .nil⟩
    · intro c y hy
      change w.currentTime ≤ y.time + w.network.aggregateBaseDelay c
      have hle := SimQueue.getFirstTime_le (hq ▸ hfirst) hy
      rw [hzero]
      lia
    · change w.network.pushed = w.network.aggregateDelayQueue.items + 0
      unfold NetworkBottleneck.pushed
      rw [hempty, hpushes]
      rfl
    · exact hzero
    · intro c
      change (processedEvents w.log).filter _ = []
      rw [hlog]
      rfl
    · intro c
      change (0 : Multiset SimEvent) + ((w.sq.side c).base).items = _
      rw [hq, zero_add]
  · rintro ⟨cfg, l⟩ ⟨cfg', l'⟩ hr hshifted ⟨hnext, hl⟩
    change l' = l.after cfg cfg' at hl
    subst hl
    have hreach : Reachable args sq cfg := Ledgered.reachable hr
    have hq : cfg.sim.sq.WellFormed := reachable_wellFormed hreach hwf
    have hahead := (run_ahead hwf hreach).2
    cases cfg with
    | picking w =>
      obtain ⟨p, w', hstep, hcfg⟩ := next_picking hnext
      subst hcfg
      exact Shifted.picks hq hahead hshifted (pickStep_ok hstep)
    | returned e w =>
      obtain ⟨stop, w', hit, _, hcfg⟩ := next_returned hnext
      exact hshifted.iterates hit hcfg
    | done w =>
      obtain rfl := pure_ok.mp hnext
      exact hshifted.quiet (t := 0) (b := true) (fun _ => rfl) (.inl rfl) (fun _ => rfl)
        hshifted.late (funext fun c => List.append_nil _)

/-- Base events come in the order of their times, each as late as all delays together that
`pushAggregateDelay` had been called with and that had taken effect by then, so that the gaps
between them never shrink; and what each call is to do, its duration once for either side, still
waits or was added to the delay of that side once. -/
theorem base_traffic_shifted {args : SimulatorArgs G} {sq : SimQueue} (hsq : sq.BaseTrace)
    {cfg : Config R G} {l : Ledger} (h : Ledgered args sq (cfg, l)) (c : Bool) :
    cfg.normals c = (l c).map (·.sent) ∧
    ((l c).map (·.base) : Multiset SimEvent) + (cfg.sim.base c).items =
      (sq.side c).base.items ∧
    (∀ s ∈ l c, s.sent.time = s.base.time + s.delay ∧
      ∀ y ∈ (cfg.sim.base c).items, s.base.time ≤ y.time) ∧
    ((l c).Pairwise fun s s' => s.base.time ≤ s'.base.time ∧ s.delay ≤ s'.delay ∧
      s'.base.time - s.base.time ≤ s'.sent.time - s.sent.time) ∧
    (∃ applied, cfg.sim.network.pushed = cfg.sim.network.aggregateDelayQueue.items + applied ∧
      ∀ side, cfg.sim.network.aggregateBaseDelay side = total side applied) ∧
    cfg.sim.network.aggregateBaseDelay c + total c cfg.sim.network.aggregateDelayQueue.items =
      (cfg.sim.network.pushes.map (·.blockDuration)).sum := by
  have hshifted := run_shifted hsq.built.wellFormed h
  obtain ⟨applied, happlied, _⟩ := hshifted.applied
  refine ⟨hshifted.sent c, hshifted.bases c, ?_, ?_, ⟨applied, happlied.split, happlied.sum⟩, ?_⟩
  · intro s hs
    obtain ⟨htime, _, hbefore⟩ := hshifted.shifts c s hs
    exact ⟨htime, hbefore⟩
  · apply (hshifted.sorted c).imp_of_mem
    intro s s' hs hs' hle
    have htime := (hshifted.shifts c s hs).1
    have htime' := (hshifted.shifts c s' hs').1
    exact ⟨hle.1, hle.2, by lia⟩
  · rw [← total_pushed c, happlied.split, total_add, ← happlied.sum, Nat.add_comm]

/-- A run of so many steps with its ledger. -/
def ledgerAfter (args : SimulatorArgs G) : Nat → Config R G × Ledger → Exec (Config R G × Ledger)
  | 0, r => return r
  | n + 1, r => do
    let cfg ← r.1.next args
    ledgerAfter args n (cfg, r.2.after r.1 cfg)

theorem ledgerAfter_ledgered {args : SimulatorArgs G} {sq : SimQueue} {n : Nat}
    {r r' : Config R G × Ledger} (hr : Ledgered args sq r) (h : ledgerAfter args n r = .ok r') :
    Ledgered args sq r' := by
  induction n generalizing r with
  | zero => exact pure_ok.mp h ▸ hr
  | succ n ih =>
    simp only [ledgerAfter, bind_ok] at h
    obtain ⟨cfg, hnext, h⟩ := h
    exact ih (.next hr ⟨hnext, rfl⟩) h

/-- Where the client blocks for 10 ms after its first packet, with so many steps done: the times
of its packets in the trace and as sent, and the calls of `pushAggregateDelay`. -/
def shiftedAt (n : Nat) : Option (List (Instant × Instant) × List DelayPush) := do
  let args : SimulatorArgs Unit := .new ⟨10000000, none⟩ 0 true
  let w ← (Sim.start [blocker 10000] [] threeSent args () () ()).toOption
  let r ← (ledgerAfter args n (.picking w, fun _ => [])).toOption
  return ((r.2 true).map fun s => (s.base.time, s.sent.time), r.1.sim.network.pushes)

/-- The second packet is held for 9 ms, and the third one is sent as much later. -/
theorem held_packet_shifts : ∃ (cfg : Config Unit Unit) (l : Ledger),
    Ledgered (.new ⟨10000000, none⟩ 0 true) threeSent (cfg, l) ∧
    (l true).map (fun s => (s.base.time, s.sent.time)) =
      [(0, 0), (1000000, 1000000), (50000000, 59000000)] ∧
    (∀ s ∈ l true, s.sent.time = s.base.time + s.delay) ∧
    cfg.sim.network.pushes = [⟨9000000, 10000000, true⟩] ∧
    cfg.sim.network.aggregateBaseDelay true +
      total true cfg.sim.network.aggregateDelayQueue.items = 9000000 := by
  have hrun : shiftedAt 25 = some ([(0, 0), (1000000, 1000000), (50000000, 59000000)],
      [⟨9000000, 10000000, true⟩]) := by decide +kernel
  unfold shiftedAt at hrun
  simp only [Option.bind_eq_bind, Option.bind_eq_some_iff, toOption_eq_some, Option.pure_def,
    Option.some.injEq, Prod.mk.injEq] at hrun
  obtain ⟨w, hstart, ⟨cfg, l⟩, hafter, htimes, hpushes⟩ := hrun
  have hbegins : Begins (.new ⟨10000000, none⟩ 0 true) threeSent (.picking w) :=
    ⟨[blocker 10000], [], (), (), (), w, hstart, rfl⟩
  have hledger := ledgerAfter_ledgered (.start ⟨hbegins, rfl⟩) hafter
  have hbase : threeSent.BaseTrace := .push (.push (.push .new ..) ..) ..
  obtain ⟨_, _, hshift, _, _, hsum⟩ := base_traffic_shifted hbase hledger true
  refine ⟨cfg, l, hledger, htimes, fun s hs => (hshift s hs).1, hpushes, ?_⟩
  rw [hsum, hpushes]
  rfl

end Config

end Maybenot

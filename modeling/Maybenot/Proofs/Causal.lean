import Maybenot.Proofs.Shifted

namespace Maybenot
open Lib

/-- The delay of a packet is that of the network and what the bottleneck added. -/
theorem sample_delay (n : NetworkBottleneck) (t : Instant) (c : Bool) :
    (n.sample t c).1.1 = n.network.delay + (n.sample t c).1.2.getD 0 := by
  have hboth (delay : Duration) (m : NetworkBottleneck) (hm : m.network = n.network) :
      (if delay > 0 then ((delay + m.network.sample, some delay), m)
        else ((m.network.sample, none), m)).1.1 = n.network.delay +
      (if delay > 0 then ((delay + m.network.sample, some delay), m)
        else ((m.network.sample, none), m)).1.2.getD 0 := by
    rw [hm]
    split
    · exact Nat.add_comm _ _
    · rfl
  cases c with
  | true => exact hboth _ { n with clientWindow := (n.clientWindow.add t).2 } rfl
  | false => exact hboth _ { n with serverWindow := (n.serverWindow.add t).2 } rfl

namespace Sim

variable {R G : Type}

/-- What the bottleneck adds to the delay of a packet sent now. -/
def bottleneck (w : Sim R G) (e : SimEvent) : Duration :=
  (w.network.sample w.currentTime e.client).1.2.getD 0

/-- The delay with which the other side reports a packet sent now. -/
def reporting (w : Sim R G) (e : SimEvent) : Duration :=
  ((w.side !e.client).reportingDelay w.rng).1

/-- The event with which a packet sent now arrives at the other side. -/
def received (w : Sim R G) (e : SimEvent) : SimEvent :=
  let networkDelay := w.network.network.delay + w.bottleneck e
  arrival e (if e.containsPadding then e.time + e.integrationDelay + networkDelay + w.reporting e
    else max (e.time - e.integrationDelay + networkDelay + w.reporting e) w.currentTime)
    (w.reporting e)

theorem sendPacket_received (w : Sim R G) (e : SimEvent) :
    (w.sendPacket e).sq = w.sq.pushSim (w.received e) := by
  unfold received bottleneck
  rw [← sample_delay]
  rfl

end Sim

/-- A packet that crosses the network, as it was sent and as it arrives. -/
structure Crossing where
  sent : SimEvent
  received : SimEvent
  bottleneck : Duration

/-- The recorded times of a packet are apart by its delay at least, and by no more if it is
padding or was not reported too late at its sender. -/
structure Crossing.Causal (x : Crossing) (delay : Duration) : Prop where
  packet : x.sent.event = .tunnelSent ∧ x.received.event = .tunnelRecv ∧
    x.received.client = !x.sent.client ∧ x.received.containsPadding = x.sent.containsPadding
  after : x.sent.adjusted.time + delay + x.bottleneck ≤ x.received.adjusted.time
  exact : x.sent.containsPadding = true ∨
      x.sent.integrationDelay ≤ delay + x.bottleneck + x.received.integrationDelay →
    x.received.adjusted.time = x.sent.adjusted.time + delay + x.bottleneck

namespace Sim

variable {R G : Type}

/-- A packet arrives where it is sent at its own time. -/
theorem received_causal {w : Sim R G} {e : SimEvent} (he : e.event = .tunnelSent)
    (hnow : w.currentTime = e.time) :
    Crossing.Causal ⟨e, w.received e, w.bottleneck e⟩ w.network.network.delay := by
  have hrecv : (w.received e).adjusted.time = (w.received e).time - w.reporting e := rfl
  cases hpad : e.containsPadding with
  | true =>
    have hsent : e.adjusted.time = e.time + e.integrationDelay := by
      simp [SimEvent.adjusted, he, hpad]
    have htime : (w.received e).time = e.time + e.integrationDelay +
        ((w.network.network.delay + w.bottleneck e : Nat) : Int) + w.reporting e := by
      simp [received, arrival, hpad]
    refine ⟨⟨he, rfl, rfl, rfl⟩, ?_, fun _ => ?_⟩
    · rw [hrecv, hsent, htime]
      lia
    · rw [hrecv, hsent, htime]
      lia
  | false =>
    have hsent : e.adjusted.time = e.time - e.integrationDelay := by
      simp [SimEvent.adjusted, he, hpad]
    have htime : (w.received e).time = max (e.time - e.integrationDelay +
        ((w.network.network.delay + w.bottleneck e : Nat) : Int) + w.reporting e) e.time := by
      simp [received, arrival, hpad, hnow]
    refine ⟨⟨he, rfl, rfl, rfl⟩, ?_, fun hcase => ?_⟩
    · rw [hrecv, hsent, htime]
      lia
    · rcases hcase with hcase | hcase
      · exact absurd (hpad.symm.trans hcase) (by simp)
      · change e.integrationDelay ≤ w.network.network.delay + w.bottleneck e + w.reporting e at hcase
        rw [hrecv, hsent, htime]
        lia

/-- A packet arrives when it is sent at the earliest. -/
theorem received_later {w : Sim R G} {e : SimEvent} (hnow : w.currentTime = e.time) :
    w.currentTime ≤ (w.received e).time := by
  unfold received arrival
  dsimp only
  split <;> lia

end Sim

/-- The packets that are to arrive. -/
def arrivals (s : Multiset SimEvent) : Multiset SimEvent := s.filter (·.event = .tunnelRecv)

theorem arrivals_cons {e : SimEvent} (he : e.event ≠ .tunnelRecv) (s : Multiset SimEvent) :
    arrivals (e ::ₘ s) = arrivals s := Multiset.filter_cons_of_neg _ he

theorem mem_arrivals {e : SimEvent} {s : Multiset SimEvent} :
    e ∈ arrivals s ↔ e ∈ s ∧ e.event = .tunnelRecv := Multiset.mem_filter

theorem arrivals_hand {e : SimEvent} (he : e.event ≠ .tunnelRecv) (s : Multiset SimEvent) :
    arrivals (Config.hand (.found (some e)) + s) = arrivals s := by
  rw [Config.hand, Multiset.singleton_add, arrivals_cons he]

theorem Prolongs.network {n n' : NetworkBottleneck} {t : Instant} {c : Bool}
    (h : Prolongs n t c n') : n'.network = n.network := by
  rcases h with h | ⟨d, h⟩
  · exact congrArg (·.1) h
  · apply (congrArg (·.1) h).trans
    cases c <;> rfl

namespace Sim

variable {R G : Type}

theorem popAggregateDelay_network (n : NetworkBottleneck) :
    n.popAggregateDelay.network = n.network := by
  unfold NetworkBottleneck.popAggregateDelay
  split
  · split <;> rfl
  · rfl

theorem picks_network {w w' : Sim R G} {p : Pick} (h : Picks w p w') :
    w'.network.network = w.network.network := by
  cases h with
  | nothing | queued => rfl
  | delayed => exact popAggregateDelay_network _
  | expiredLater => exact (expiryDelay_prolongs ..).network
  | expiredNow => exact (expiryDelay_prolongs ..).network
  | timer => exact congrArg (·.network) (setSide_network ..)
  | padding => exact congrArg (·.network) (setSide_network ..)
  | block => exact congrArg (·.network) (setSide_network ..)

/-- A packet that is not past does not arrive before the wait chosen. -/
theorem arrival_after {w : Sim R G} (hwf : w.sq.WellFormed) {x : Wait} {k : Queue} {c : Bool}
    (hq : w.queueWait = .ok (x, k, c)) {d : Duration} (hx : d ≤ x) (hother : d ≤ w.otherWait)
    {y : SimEvent} (hy : y ∈ arrivals w.sq.items) (hnow : w.currentTime ≤ y.time) :
    w.currentTime + d ≤ y.time := by
  obtain ⟨hmem, hev⟩ := mem_arrivals.mp hy
  obtain ⟨c, j, hj⟩ := SimQueue.mem_items.mp hmem
  have hhome : j = .internal := (hwf c j y hj).1.symm.trans (by simp [SimEvent.home, hev])
  subst hhome
  exact Config.internal_after hwf hq hx hother hj hnow

/-- A packet comes out of the queue as it went in. -/
theorem picked_arrival {w : Sim R G} (hwf : w.sq.WellFormed) {q : Duration} {k : Queue} {c : Bool}
    {e queued next : SimEvent} (hq : w.queueWait = .ok (↑q, k, c))
    (hhead : ((w.sq.side c).heap k).peek = some e)
    (hqueued : queued = e.moved k (w.network.aggregateBaseDelay c))
    (hnext : next = queued.forward (w.currentTime + q)) (hev : e.event = .tunnelRecv)
    (hnow : w.currentTime ≤ e.time) : next = e := by
  have hmem := BinaryHeap.peek_mem hhead
  have hhome : k = .internal := (hwf c k e hmem).1.symm.trans (by simp [SimEvent.home, hev])
  subst hhome
  have hwait : q = Instant.durationSince e.time w.currentTime :=
    (queueWait_head hwf hq hhead).trans (Config.internal_wait hwf hmem)
  have hqe : queued = e := hqueued.trans (e.moved_of_ne _ (by simp))
  unfold Instant.durationSince at hwait
  unfold SimEvent.forward at hnext
  rw [hqe, if_neg (by lia)] at hnext
  exact hnext

/-- A round of picking leaves the packets as they are, and goes past none. -/
theorem picks_arrivals {w w' : Sim R G} {p : Pick} (hwf : w.sq.WellFormed)
    (hnow : ∀ y ∈ arrivals w.sq.items, w.currentTime ≤ y.time) (h : Picks w p w') :
    arrivals (Config.hand p + w'.sq.items) = arrivals w.sq.items ∧
      ∀ y ∈ arrivals w'.sq.items, reached w.currentTime p ≤ y.time := by
  have hpush {w1 : Sim R G} {e : SimEvent} (hsq : w1.sq = w.sq) (he : e.event ≠ .tunnelRecv) :
      arrivals (0 + (w1.pushSim e).sq.items) = arrivals w.sq.items ∧
        ∀ y ∈ arrivals (w1.pushSim e).sq.items, w.currentTime ≤ y.time := by
    have hsame : arrivals (w1.pushSim e).sq.items = arrivals w.sq.items := by
      change arrivals (w1.sq.pushSim e).items = _
      rw [hsq, SimQueue.items_pushSim, arrivals_cons he]
    rw [zero_add, hsame]
    exact ⟨rfl, hnow⟩
  cases h with
  | nothing hq hs hi hb hn => exact ⟨congrArg arrivals (zero_add _), hnow⟩
  | delayed hq hn hne => exact ⟨congrArg arrivals (zero_add _), hnow⟩
  | expiredLater hq hb hle hn hd hpos => exact hpush (setSide_sq ..) (by simp [blockingEnded])
  | @expiredNow _ _ _ c g next b hq hb hle hn hd hnext =>
    have hsame : (w.unblocked b c g).sq = w.sq := setSide_sq ..
    subst hnext
    refine ⟨?_, ?_⟩
    · rw [arrivals_hand (by simp [blockingEnded])]
      exact congrArg (fun sq => arrivals sq.items) hsame
    · intro y hy
      have hy : y ∈ arrivals w.sq.items := hsame ▸ hy
      have hother : (b : Wait) ≤ w.otherWait :=
        le_otherWait hle.1 hle.2.1 (by rw [hb]) hn.le
      have hafter := arrival_after hwf hq hle.2.2 hother hy (hnow y hy)
      change w.currentTime + (b : Int) + (0 : Nat) ≤ y.time
      lia
  | @queued k c e queued next q hq hle hlt hhead hqueued hnext =>
    have hpopped := SimQueue.items_popped hhead
    refine ⟨?_, ?_⟩
    · change arrivals (Config.hand (.found (some next)) + (w.sq.popped k c).items) = _
      by_cases hev : e.event = .tunnelRecv
      · have hmem : e ∈ arrivals w.sq.items :=
          mem_arrivals.mpr ⟨hpopped ▸ Multiset.mem_cons_self e _, hev⟩
        rw [picked_arrival hwf hq hhead hqueued hnext hev (hnow e hmem), Config.hand,
          Multiset.singleton_add, hpopped]
      · have hnev : next.event ≠ .tunnelRecv := by
          rw [(Config.picked_same hqueued hnext).1]
          exact hev
        rw [arrivals_hand hnev, ← hpopped, arrivals_cons hev]
    · intro y hy
      have hmem : y ∈ arrivals w.sq.items := by
        obtain ⟨hy, hev⟩ := mem_arrivals.mp hy
        exact mem_arrivals.mpr ⟨hpopped ▸ Multiset.mem_cons_of_mem hy, hev⟩
      have hother := le_otherWait hle.1 hle.2 hlt.1.le hlt.2.le
      have hafter := arrival_after hwf hq le_rfl hother hmem (hnow y hmem)
      change next.time ≤ y.time
      rw [picked_time hwf hq hhead hqueued hnext]
      exact hafter
  | timer hq hi hle hlt hdue => exact hpush (setSide_sq ..) (by simp)
  | padding hq hs hlt hdue ha hd => exact hpush (setSide_sq ..) (by simp)
  | block hq hs hlt hdue ha hd hd' hx => exact hpush (setSide_sq ..) (by simp [blockingBegun])

/-- The network adds a packet that is to arrive for one that is sent, and for nothing else. -/
theorem sends_arrivals {w w' : Sim R G} {e : SimEvent} {a : Bool} (h : Sends w e a w') :
    arrivals w'.sq.items =
      (if e.event = .tunnelSent then {w.received e} else 0) + arrivals w.sq.items := by
  have hpush {y : SimEvent} (hy : y.event ≠ .tunnelRecv) (he : e.event ≠ .tunnelSent) :
      arrivals (w.sq.pushSim y).items =
        (if e.event = .tunnelSent then {w.received e} else 0) + arrivals w.sq.items := by
    rw [SimQueue.items_pushSim, arrivals_cons hy, if_neg he, zero_add]
  cases h with
  | normal he => exact hpush (by simp [SimEvent.tunnelSent]) (by simp [he])
  | kept he hr hb hq =>
    rw [if_neg (by simp [he]), zero_add]
    rfl
  | @swapped machine queued k bottleneck he hr hb hq hn =>
    have hev : queued.event = .tunnelSent := hq.2.2.1
    rw [if_neg (by simp [he]), zero_add]
    change arrivals ((w.sq.popped k e.client).pushSim _).items = _
    rw [SimQueue.items_pushSim, arrivals_cons (by simp [hev]),
      ← SimQueue.items_popped (peekBlocking_ok hq.1).1, arrivals_cons (by simp [hev])]
  | padded he hq => exact hpush (by simp [SimEvent.tunnelSent]) (by simp [he])
  | sent he =>
    have hev : (w.received e).event = .tunnelRecv := rfl
    rw [if_pos he, sendPacket_received, SimQueue.items_pushSim, Multiset.singleton_add]
    exact Multiset.filter_cons_of_pos _ hev
  | received he =>
    refine hpush ?_ (by simp [he])
    dsimp only
    split <;> simp
  | apart he => rw [if_neg he.2.2.1, zero_add]

/-- Whether the settings let an event into the trace. -/
def Recorded (args : SimulatorArgs G) (e : SimEvent) : Bool :=
  (!args.onlyNetworkActivity || (e.event == .tunnelSent || e.event == .tunnelRecv)) &&
    (!args.onlyClientEvents || e.client)

theorem sends_activity {w w' : Sim R G} {e : SimEvent} {a : Bool} (h : Sends w e a w') :
    a = (e.event == .tunnelSent || e.event == .tunnelRecv) ∧ w'.trace = w.trace := by
  cases h with
  | normal he => exact ⟨by simp [he], rfl⟩
  | kept he hr hb hq => exact ⟨by simp [he], rfl⟩
  | swapped he hr hb hq hn => exact ⟨by simp [he], rfl⟩
  | padded he hq => exact ⟨by simp [he], rfl⟩
  | sent he => exact ⟨by simp [he], rfl⟩
  | received he => exact ⟨by simp [he], rfl⟩
  | apart he => exact ⟨by simp [he], rfl⟩

/-- The trace of an event is one event or none. -/
theorem iterates_trace [RngCore R] {args : SimulatorArgs G} {w w' : Sim R G} {e : SimEvent}
    (h : Iterates args w e w') :
    w'.trace = w.trace ++ ([e].filter (Recorded args)).map (·.adjusted) := by
  obtain ⟨_, a, w1, w2, hs, ht, n, rfl⟩ := h
  obtain ⟨_, _, w3, _, _, _, _, hrest, hacted⟩ := triggerUpdate_ok ht
  obtain ⟨ha, htrace⟩ := sends_activity hs
  have hsame : w2.trace = w.trace := (congrArg (·.2.2.1) (hacted.rest.trans hrest)).trans htrace
  change (w2.record args e a).trace = _
  unfold record
  rw [← hsame, ha, List.filter_singleton]
  unfold Recorded
  split
  · rename_i hrec
    rw [hrec]
    rfl
  · rename_i hrec
    rw [Bool.eq_false_of_not_eq_true hrec]
    exact (List.append_nil _).symm

end Sim

namespace Config
open Sim

variable {R G : Type}

/-- The packets that a run has sent after a step: one if the event in hand is sent. -/
def crossed (l : List Crossing) : Config R G → List Crossing
  | .returned e w =>
    let sending := { w with currentTime := e.time }
    if e.event = .tunnelSent then l ++ [⟨e, sending.received e, sending.bottleneck e⟩] else l
  | .picking _ | .done _ => l

theorem crossed_sent {l : List Crossing} {w : Sim R G} {e : SimEvent}
    (he : e.event = .tunnelSent) : crossed l (.returned e w) =
      l ++ [⟨e, { w with currentTime := e.time }.received e,
        { w with currentTime := e.time }.bottleneck e⟩] := if_pos he

theorem crossed_other {l : List Crossing} {w : Sim R G} {e : SimEvent}
    (he : e.event ≠ .tunnelSent) : crossed l (.returned e w) = l := if_neg he

/-- The events of one kind that were processed, in order. -/
def handled (event : TriggerEvent) (w : Sim R G) : List SimEvent :=
  (processedEvents w.log).filter (·.event = event)

/-- The invariant of the packets that cross the network. -/
structure Crosses (args : SimulatorArgs G) (cfg : Config R G) (l : List Crossing) : Prop where
  network : cfg.sim.network.network = args.network
  later : ∀ y ∈ arrivals cfg.sim.sq.items, cfg.now ≤ y.time
  trace : cfg.sim.trace =
    ((processedEvents cfg.sim.log).filter (Recorded args)).map (·.adjusted)
  sent : handled .tunnelSent cfg.sim = l.map (·.sent)
  received : (l.map (·.received) : Multiset SimEvent) =
    handled .tunnelRecv cfg.sim + arrivals cfg.items
  causal : ∀ x ∈ l, x.Causal args.network.delay

theorem Crosses.picks {args : SimulatorArgs G} {w w' : Sim R G} {p : Pick} {l : List Crossing}
    (hwf : w.sq.WellFormed) (h : Crosses args (.picking w) l) (hp : Picks w p w') :
    Crosses args (place w' p) l := by
  obtain ⟨hsame, hlater⟩ := picks_arrivals hwf h.later hp
  have hlog := picks_processedEvents hp
  have hitems : (place w' p).items = hand p + w'.sq.items := by
    rcases p with _ | ⟨_ | e⟩
    · exact (zero_add _).symm
    · exact (zero_add _).symm
    · rw [hand, Multiset.singleton_add]
      rfl
  refine ⟨?_, ?_, ?_, ?_, ?_, h.causal⟩
  · rw [place_sim, picks_network hp]
    exact h.network
  · rw [place_sim, place_now hp.kept.1]
    exact hlater
  · rw [place_sim, hp.kept.2.1, hlog]
    exact h.trace
  · unfold handled
    rw [place_sim, hlog]
    exact h.sent
  · unfold handled
    rw [hitems, place_sim, hsame, hlog]
    exact h.received

variable [RngCore R]

theorem iterates_handled {args : SimulatorArgs G} {w w' : Sim R G} {e : SimEvent}
    (h : Iterates args w e w') (event : TriggerEvent) :
    handled event w' = handled event w ++ [e].filter (·.event = event) := by
  unfold handled
  rw [iterates_processedEvents h, List.filter_append]

/-- A packet that is sent is one more on its way, and nothing else is. -/
theorem iterates_arrivals {args : SimulatorArgs G} {w w' : Sim R G} {e : SimEvent}
    (h : Iterates args w e w') : arrivals w'.sq.items =
      (if e.event = .tunnelSent then {{ w with currentTime := e.time }.received e} else 0) +
        arrivals w.sq.items := by
  obtain ⟨a, w1, hs, ⟨ms, hitems⟩, _⟩ := iterates_counts h
  have htimers : arrivals ↑(ms.map (timerBegun e.client e.time)) = 0 := by
    refine Multiset.filter_eq_nil.mpr fun y hy => ?_
    obtain ⟨m, _, rfl⟩ := List.mem_map.mp (Multiset.mem_coe.mp hy)
    simp [timerBegun]
  have hsplit : arrivals w'.sq.items = arrivals w1.sq.items := by
    rw [hitems]
    exact (Multiset.filter_add _ _ _).trans (congrArg (· + _) htimers |>.trans (zero_add _))
  exact hsplit.trans (sends_arrivals hs)

/-- Of the packets that were sent one more has arrived, or one more is on its way. -/
theorem Crosses.iterates_received {args : SimulatorArgs G} {w w' : Sim R G} {e : SimEvent}
    {l : List Crossing} (h : Crosses args (.returned e w) l) (hit : Iterates args w e w') :
    ((crossed l (.returned e w)).map (·.received) : Multiset SimEvent) =
      handled .tunnelRecv w' + arrivals w'.sq.items := by
  have hreceived : (l.map (·.received) : Multiset SimEvent) =
    handled .tunnelRecv w + arrivals (e ::ₘ w.sq.items) := h.received
  rw [iterates_handled hit, iterates_arrivals hit]
  by_cases he : e.event = .tunnelSent
  · have hne : e.event ≠ .tunnelRecv := by simp [he]
    rw [arrivals_cons hne] at hreceived
    have hno : [e].filter (fun x => decide (x.event = .tunnelRecv)) = [] := by simp [hne]
    rw [crossed_sent he, if_pos he, List.map_append, ← Multiset.coe_add, hreceived, hno,
      List.append_nil]
    change _ + ({{ w with currentTime := e.time }.received e} : Multiset SimEvent) = _
    ac_rfl
  · rw [crossed_other he, if_neg he, hreceived, zero_add, ← Multiset.coe_add, add_assoc]
    congr 1
    unfold arrivals
    rw [Multiset.filter_cons, List.filter_singleton]
    by_cases hr : e.event = .tunnelRecv
    · simp [hr]
    · simp [hr]

theorem Crosses.iterates {args : SimulatorArgs G} {w w' : Sim R G} {e : SimEvent}
    {stop : Bool} {cfg : Config R G} {l : List Crossing} (h : Crosses args (.returned e w) l)
    (hit : w.iterate args e = .ok (stop, w')) (hcfg : cfg = .picking w' ∨ cfg = .done w') :
    Crosses args cfg (crossed l (.returned e w)) := by
  have hiterates := (iterate_ok hit).1
  have hlog := iterates_processedEvents hiterates
  have htime : w'.currentTime = e.time := (iterates_hears hiterates true).time
  have hnetwork : w.network.network = args.network := h.network
  let sending : Sim R G := { w with currentTime := e.time }
  have hnext : Crosses args (.picking w' : Config R G) (crossed l (.returned e w)) := by
    refine ⟨?_, ?_, ?_, ?_, h.iterates_received hiterates, ?_⟩
    · exact (iterate_prolongs hit).network.trans hnetwork
    · intro y hy
      change w'.currentTime ≤ y.time
      change y ∈ arrivals w'.sq.items at hy
      rw [htime]
      rw [iterates_arrivals hiterates] at hy
      rcases Multiset.mem_add.mp hy with hy | hy
      · split at hy
        · obtain rfl := Multiset.mem_singleton.mp hy
          exact received_later (w := sending) rfl
        · exact absurd hy (Multiset.notMem_zero y)
      · exact h.later y hy
    · change w'.trace = ((processedEvents w'.log).filter (Recorded args)).map (·.adjusted)
      have htrace : w.trace =
        ((processedEvents w.log).filter (Recorded args)).map (·.adjusted) := h.trace
      rw [iterates_trace hiterates, htrace, hlog, List.filter_append, List.map_append]
    · change handled .tunnelSent w' = _
      have hsent : handled .tunnelSent w = _ := h.sent
      rw [iterates_handled hiterates, hsent]
      by_cases he : e.event = .tunnelSent
      · rw [crossed_sent he, List.map_append]
        simp [he]
      · rw [crossed_other he]
        simp [he]
    · intro x hx
      by_cases he : e.event = .tunnelSent
      · rw [crossed_sent he] at hx
        rcases List.mem_append.mp hx with hx | hx
        · exact h.causal x hx
        · obtain rfl := List.mem_singleton.mp hx
          exact hnetwork ▸ received_causal (w := sending) he rfl
      · rw [crossed_other he] at hx
        exact h.causal x hx
  rcases hcfg with rfl | rfl
  · exact hnext
  · exact ⟨hnext.network, hnext.later, hnext.trace, hnext.sent, hnext.received, hnext.causal⟩

/-- The runs on a queue, each with the packets that it has sent. -/
abbrev Crossed (args : SimulatorArgs G) (sq : SimQueue) : Config R G × List Crossing → Prop :=
  Reach (fun r => Begins args sq r.1 ∧ r.2 = [])
    fun r r' => r.1.next args = .ok r'.1 ∧ r'.2 = crossed r.2 r.1

theorem Crossed.reachable {args : SimulatorArgs G} {sq : SimQueue}
    {r : Config R G × List Crossing} (h : Crossed args sq r) : Reachable args sq r.1 := by
  induction h with
  | start hs => exact .start hs.1
  | next _ hst ih => exact .next ih ⟨trivial, hst.1⟩

theorem Reachable.crossed {args : SimulatorArgs G} {sq : SimQueue} {cfg : Config R G}
    (h : Reachable args sq cfg) : ∃ l, Crossed args sq (cfg, l) := by
  induction h with
  | @start cfg hs => exact ⟨[], .start ⟨hs, rfl⟩⟩
  | @next cfg cfg' _ hst ih =>
    obtain ⟨l, hl⟩ := ih
    exact ⟨Config.crossed l cfg, .next hl ⟨hst.2, rfl⟩⟩

theorem run_crosses {args : SimulatorArgs G} {sq : SimQueue} (hwf : sq.WellFormed)
    (hnone : ∀ e ∈ sq.items, e.event ≠ .tunnelRecv) {r : Config R G × List Crossing}
    (h : Crossed args sq r) : Crosses args r.1 r.2 := by
  have hempty : arrivals sq.items = 0 := Multiset.filter_eq_nil.mpr hnone
  refine h.invariant_of (P := fun r => Crosses args r.1 r.2) ?_ ?_
  · rintro ⟨cfg, l⟩ ⟨⟨_, _, _, _, _, w, hstart, rfl⟩, rfl⟩
    obtain ⟨_, _, _, hnet, hq, _, htrace, _, hlog⟩ := start_ok hstart
    have hhandled (event : TriggerEvent) : handled event w = [] := by
      unfold handled
      rw [hlog]
      rfl
    refine ⟨(NetworkBottleneck.new_ok hnet).1, ?_, ?_, hhandled _, ?_, by simp⟩
    · intro y hy
      change y ∈ arrivals w.sq.items at hy
      rw [hq, hempty] at hy
      exact absurd hy (Multiset.notMem_zero y)
    · change w.trace = ((processedEvents w.log).filter _).map _
      rw [htrace, hlog]
      rfl
    · change (0 : Multiset SimEvent) = handled .tunnelRecv w + arrivals w.sq.items
      rw [hhandled, hq, hempty]
      rfl
  · rintro ⟨cfg, l⟩ ⟨cfg', l'⟩ hr hcrosses ⟨hnext, hl⟩
    change l' = crossed l cfg at hl
    subst hl
    have hq : cfg.sim.sq.WellFormed := reachable_wellFormed (Crossed.reachable hr) hwf
    cases cfg with
    | picking w =>
      obtain ⟨p, w', hstep, hcfg⟩ := next_picking hnext
      subst hcfg
      exact Crosses.picks hq hcrosses (pickStep_ok hstep)
    | returned e w =>
      obtain ⟨stop, w', hit, _, hcfg⟩ := next_returned hnext
      exact hcrosses.iterates hit hcfg
    | done w => exact pure_ok.mp hnext ▸ hcrosses

/-- A run that comes to an end has come to its last state. -/
theorem run_reachable {args : SimulatorArgs G} {sq : SimQueue} {fuel : Nat} {cfg : Config R G}
    {w : Sim R G} (hcfg : Reachable args sq cfg) (h : cfg.run args fuel = .ok w) :
    Reachable args sq (.done w) := by
  induction fuel generalizing cfg with
  | zero =>
    cases cfg with
    | done w' => exact pure_ok.mp h ▸ hcfg
    | picking w' => exact absurd h (by simp [run])
    | returned e w' => exact absurd h (by simp [run])
  | succ fuel ih =>
    have hstep (h : (cfg.next args >>= fun c => c.run args fuel) = .ok w) :
        Reachable args sq (.done w) := by
      obtain ⟨cfg', hnext, hrun⟩ := bind_ok.mp h
      exact ih (.next hcfg ⟨trivial, hnext⟩) hrun
    cases cfg with
    | done w' => exact pure_ok.mp h ▸ hcfg
    | picking w' => exact hstep h
    | returned e w' => exact hstep h

end Config

open Config

variable {R G : Type} [RngCore R]

/-- The trace has every packet that was sent and every one that arrived, and no packet arrives
before it can have crossed the network. -/
theorem trace_causal {machinesClient machinesServer : List Machine} {sq : SimQueue}
    {args : SimulatorArgs G} {rngClient rngServer : R} {rng : G} {fuel : Nat}
    {out : List SimEvent} (hsq : sq.Built) (hnone : ∀ e ∈ sq.items, e.event ≠ .tunnelRecv)
    (h : simAdvanced machinesClient machinesServer sq args rngClient rngServer rng fuel = .ok out) :
    ∃ (w : Sim R G) (l : List Crossing), Crossed args sq (.done w, l) ∧
      out.Perm (((processedEvents w.log).filter (Sim.Recorded args)).map (·.adjusted)) ∧
      handled .tunnelSent w = l.map (·.sent) ∧
      (l.map (·.received) : Multiset SimEvent) = handled .tunnelRecv w + arrivals w.sq.items ∧
      ∀ x ∈ l, x.Causal args.network.delay := by
  simp only [simAdvanced, bind_ok] at h
  obtain ⟨w0, hstart, w, hrun, hout⟩ := h
  have hbegin : Reachable args sq (.picking w0) :=
    .start ⟨machinesClient, machinesServer, rngClient, rngServer, rng, w0, hstart, rfl⟩
  obtain ⟨l, hl⟩ := (run_reachable hbegin hrun).crossed
  have hcrosses : Crosses args (.done w) l := run_crosses hsq.wellFormed hnone hl
  refine ⟨w, l, hl, ?_, hcrosses.sent, hcrosses.received, hcrosses.causal⟩
  obtain rfl := pure_ok.mp hout
  have htrace : w.trace = ((processedEvents w.log).filter (Sim.Recorded args)).map (·.adjusted) :=
    hcrosses.trace
  rw [← htrace]
  exact List.mergeSort_perm ..

/-- Both sides act, report and are triggered late. -/
def delaying : SimulatorArgs Unit :=
  { continuing with
    clientIntegration := some ⟨fun g => (2000, g), fun g => (3000, g), fun g => (1000, g)⟩
    serverIntegration := some ⟨fun g => (2000, g), fun g => (4000, g), fun g => (1000, g)⟩ }

/-- Two packets that the client reports three microseconds late. -/
def lateSent : SimQueue :=
  (SimQueue.new.push .normalSent true false 3000 3000).push .normalSent true false 1003000 3000

/-- Two packets of a client that blocks and one padding are recorded at the server 10 after they are
at the client, although they are reported late at both. -/
theorem delayed_packets_causal : ∃ out : List SimEvent,
    simAdvanced (R := Unit) [stallAndPad] [] lateSent delaying () () () 100 = .ok out ∧
    (out.map fun e => (e.event, e.client, e.time)).Perm
      [(.tunnelSent, true, 0), (.tunnelRecv, false, 10), (.tunnelSent, true, 2007000),
        (.tunnelRecv, false, 2007010), (.tunnelSent, true, 4013000),
        (.tunnelRecv, false, 4013010)] ∧
    ∃ (w : Sim Unit Unit) (l : List Crossing), handled .tunnelSent w = l.map (·.sent) ∧
      ∀ x ∈ l, x.Causal 10 := by
  have hrun : ((Sim.start [stallAndPad] [] lateSent delaying () () ()).toOption.bind fun w =>
      ((Config.picking w).run (R := Unit) delaying 100).toOption.map
        fun w => w.trace.map fun e => (e.event, e.client, e.time)) =
      some [(.tunnelSent, true, 0), (.tunnelRecv, false, 10), (.tunnelSent, true, 2007000),
        (.tunnelRecv, false, 2007010), (.tunnelSent, true, 4013000),
        (.tunnelRecv, false, 4013010)] := by decide +kernel
  simp only [Option.bind_eq_some_iff, Option.map_eq_some_iff, toOption_eq_some] at hrun
  obtain ⟨w0, hstart, w, hrun, hmap⟩ := hrun
  have hout : simAdvanced (R := Unit) [stallAndPad] [] lateSent delaying () () () 100 =
      .ok (w.trace.mergeSort fun a b => decide (a.time ≤ b.time)) :=
    (bind_eq hstart).trans (bind_eq hrun)
  have hnone : ∀ e ∈ lateSent.items, e.event ≠ .tunnelRecv := by decide +kernel
  obtain ⟨w, l, _, _, hsent, _, hcausal⟩ := trace_causal (.push _ (.push _ (.new none))) hnone hout
  exact ⟨_, hout, ((List.mergeSort_perm ..).map _).trans (hmap ▸ .refl _), w, l, hsent, hcausal⟩

end Maybenot

import Maybenot.Proofs.Quiet
import Maybenot.Proofs.Traces

namespace Maybenot
open Lib

variable {R G : Type}

namespace NetworkBottleneck

/-- The window that counts the packets that a side sends. -/
def window (n : NetworkBottleneck) (c : Bool) : WindowCount :=
  if c then n.clientWindow else n.serverWindow

def setWindow (n : NetworkBottleneck) (c : Bool) (w : WindowCount) : NetworkBottleneck :=
  if c then { n with clientWindow := w } else { n with serverWindow := w }

theorem window_setWindow (n : NetworkBottleneck) (c c' : Bool) (w : WindowCount) :
    (n.setWindow c w).window c' = if c' = c then w else n.window c' := by
  cases c <;> cases c' <;> rfl

/-- What counting a packet leaves alone. -/
theorem setWindow_rest (n : NetworkBottleneck) (c : Bool) (w : WindowCount) :
    (n.setWindow c w).aggregateDelayQueue = n.aggregateDelayQueue ∧
      (∀ c', (n.setWindow c w).aggregateBaseDelay c' = n.aggregateBaseDelay c') ∧
      (n.setWindow c w).ppsLimit = n.ppsLimit := by
  cases c <;> exact ⟨rfl, fun _ => rfl, rfl⟩

/-- What the bottleneck adds to the delay of a packet that is the last of so many. -/
def surcharge (n : NetworkBottleneck) (count : Nat) : Duration :=
  if count > n.ppsLimit then n.ppsAddedDelay * asU32 (count - n.ppsLimit) else 0

/-- A packet is counted, and it is delayed by the network and the bottleneck. -/
theorem sample_eq (n : NetworkBottleneck) (t : Instant) (c : Bool) :
    n.sample t c = ((n.surcharge ((n.window c).add t).1 + n.network.sample,
      if n.surcharge ((n.window c).add t).1 > 0 then some (n.surcharge ((n.window c).add t).1)
      else none), n.setWindow c ((n.window c).add t).2) := by
  have hbody (delay : Duration) (m : NetworkBottleneck) (hm : m.network = n.network) :
      (if delay > 0 then ((delay + m.network.sample, some delay), m)
        else ((m.network.sample, none), m)) =
      ((delay + n.network.sample, if delay > 0 then some delay else none), m) := by
    rw [hm]
    by_cases hdelay : delay > 0
    · rw [if_pos hdelay, if_pos hdelay]
    · obtain rfl := Nat.eq_zero_of_not_pos hdelay
      rw [if_neg hdelay, if_neg hdelay, Nat.zero_add]
  cases c with
  | true => exact hbody _ _ rfl
  | false => exact hbody _ _ rfl

/-- A packet within the limit is counted and not delayed. -/
theorem sample_within {n : NetworkBottleneck} {t : Instant} {c : Bool}
    (h : ((n.window c).add t).1 ≤ n.ppsLimit) :
    (n.sample t c).1.2 = none ∧ (n.sample t c).2 = n.setWindow c ((n.window c).add t).2 := by
  have hnone : n.surcharge ((n.window c).add t).1 = 0 := if_neg (Nat.not_lt.mpr h)
  rw [sample_eq, hnone]
  exact ⟨rfl, rfl⟩

end NetworkBottleneck

/-- An event of a normal packet that is reported at once. -/
structure Packet (e : SimEvent) : Prop where
  kind : e.event = .normalSent ∨ e.event = .tunnelSent ∨ e.event = .tunnelRecv ∨
    e.event = .normalRecv
  normal : e.containsPadding = false
  prompt : e.integrationDelay = 0

/-- How many steps a packet is from its end. -/
def SimEvent.ahead (e : SimEvent) : Nat :=
  match e.event with
  | .normalSent => 4
  | .tunnelSent => 3
  | .tunnelRecv => 2
  | _ => 1

/-- When the packets are sent that a side is to send. -/
def unsent (c : Bool) (s : Multiset SimEvent) : Multiset Instant :=
  (s.filter fun e => e.client = c ∧ (e.event = .normalSent ∨ e.event = .tunnelSent)).map (·.time)

theorem unsent_add (c : Bool) (s s' : Multiset SimEvent) :
    unsent c (s + s') = unsent c s + unsent c s' := by
  unfold unsent
  rw [Multiset.filter_add, Multiset.map_add]

theorem unsent_singleton (c : Bool) (e : SimEvent) : unsent c {e} =
    if e.client = c ∧ (e.event = .normalSent ∨ e.event = .tunnelSent) then {e.time} else 0 := by
  unfold unsent
  rw [Multiset.filter_singleton]
  split <;> rfl

namespace Sim

/-- The events that an event of a packet leads to. -/
def follow (w : Sim R G) (e : SimEvent) : Multiset SimEvent :=
  match e.event with
  | .normalSent => {e.tunnelSent false false false}
  | .tunnelSent => {w.received e}
  | .tunnelRecv => {{
      event := .normalRecv, time := e.time, integrationDelay := e.integrationDelay
      client := e.client, containsPadding := e.containsPadding, bypass := false, replace := false }}
  | _ => 0

/-- The network makes of a packet what follows. -/
theorem sends_follow {w w' : Sim R G} {e : SimEvent} {a : Bool} (hp : Packet e)
    (h : Sends w e a w') : w'.sq.items = w.follow e + w.sq.items ∧
      w'.network = if e.event = .tunnelSent then (w.sendPacket e).network else w.network := by
  have hnone (m : MachineId) (he : e.event = .paddingSent m) : False := by
    rcases hp.kind with hk | hk | hk | hk <;> exact absurd (hk.symm.trans he) (by simp)
  unfold follow
  cases h with
  | normal he =>
    rw [he, if_neg (by simp)]
    exact ⟨(SimQueue.items_pushSim ..).trans (Multiset.singleton_add _ _).symm, rfl⟩
  | sent he =>
    rw [he, if_pos rfl, sendPacket_received]
    exact ⟨(SimQueue.items_pushSim ..).trans (Multiset.singleton_add _ _).symm, rfl⟩
  | received he =>
    refine ⟨?_, (if_neg (by simp [he])).symm⟩
    rw [he, hp.normal]
    exact (SimQueue.items_pushSim ..).trans (Multiset.singleton_add _ _).symm
  | apart he =>
    rw [if_neg he.2.2.1]
    refine ⟨?_, rfl⟩
    rcases hp.kind with hk | hk | hk | hk
    · exact absurd hk he.1
    · exact absurd hk he.2.2.1
    · exact absurd hk he.2.2.2
    · rw [hk, zero_add]
  | kept he => exact (hnone _ he).elim
  | swapped he => exact (hnone _ he).elim
  | padded he => exact (hnone _ he).elim

/-- What follows is a packet again, not earlier and one step further. -/
theorem follow_packet {w : Sim R G} {e : SimEvent} (hp : Packet e)
    (hquiet : ∀ c, Quiet (w.side c)) (hnow : w.currentTime = e.time) :
    (∀ y ∈ w.follow e, Packet y ∧ e.time ≤ y.time) ∧
      ((w.follow e).map SimEvent.ahead).sum + 1 = e.ahead := by
  have hreporting : w.reporting e = 0 :=
    congrArg Prod.fst ((hquiet !e.client).draws (·.reportingDelay) w.rng)
  unfold follow SimEvent.ahead
  rcases hp.kind with hk | hk | hk | hk
  · rw [hk]
    refine ⟨?_, rfl⟩
    intro y hy
    obtain rfl := Multiset.mem_singleton.mp hy
    exact ⟨⟨.inr (.inl rfl), rfl, hp.prompt⟩, le_rfl⟩
  · rw [hk]
    refine ⟨?_, rfl⟩
    intro y hy
    obtain rfl := Multiset.mem_singleton.mp hy
    have hlater := received_later hnow
    rw [hnow] at hlater
    exact ⟨⟨.inr (.inr (.inl rfl)), hp.normal, hreporting⟩, hlater⟩
  · rw [hk]
    refine ⟨?_, rfl⟩
    intro y hy
    obtain rfl := Multiset.mem_singleton.mp hy
    exact ⟨⟨.inr (.inr (.inr rfl)), hp.normal, hp.prompt⟩, le_rfl⟩
  · rw [hk]
    exact ⟨fun y hy => absurd hy (Multiset.notMem_zero y), rfl⟩

/-- Only sending a packet through the tunnel makes it one that is sent. -/
theorem unsent_follow {w : Sim R G} {e : SimEvent} (hp : Packet e) (c : Bool) :
    unsent c {e} = unsent c (w.follow e) +
      if e.event = .tunnelSent ∧ e.client = c then {e.time} else 0 := by
  unfold follow
  rcases hp.kind with hk | hk | hk | hk
  · rw [hk, unsent_singleton, unsent_singleton]
    simp [hk, SimEvent.tunnelSent]
  · rw [hk, unsent_singleton, unsent_singleton]
    simp [hk, received, arrival]
  · rw [hk, unsent_singleton, unsent_singleton]
    simp [hk]
  · rw [hk, unsent_singleton]
    simp [hk, unsent]

theorem sendPacket_network {w : Sim R G} {e : SimEvent}
    (h : (w.network.sample w.currentTime e.client).1.2 = none) :
    (w.sendPacket e).network = (w.network.sample w.currentTime e.client).2 := by
  unfold sendPacket pushSim
  dsimp only
  rw [h]

end Sim

namespace Config
open Sim

/-- A packet that is reported at once is recorded as it is. -/
theorem adjusted_prompt {e : SimEvent} (h : e.integrationDelay = 0) :
    e.adjusted.time = e.time := by
  unfold SimEvent.adjusted
  rw [h]
  split <;> simp

/-- When a side sent the packets that it has sent so far. -/
def sentTimes (c : Bool) (l : List Crossing) : List Instant :=
  (l.filter (·.sent.client == c)).map (·.sent.time)

theorem sentTimes_concat (c : Bool) (l : List Crossing) (x : Crossing) :
    sentTimes c (l ++ [x]) =
      sentTimes c l ++ if x.sent.client = c then [x.sent.time] else [] := by
  unfold sentTimes
  rw [List.filter_append, List.map_append, List.filter_singleton]
  by_cases hx : x.sent.client = c
  · rw [if_pos hx, beq_iff_eq.mpr hx]
    rfl
  · rw [if_neg hx, beq_eq_false_iff_ne.mpr hx]
    rfl

/-- How many steps a run without machines may still take. -/
def stepsLeft : Config R G → Nat
  | .picking w => 2 * (w.sq.items.map SimEvent.ahead).sum + 1
  | .returned e w => 2 * ((e ::ₘ w.sq.items).map SimEvent.ahead).sum
  | .done _ => 0

/-- A bottleneck that has counted the packets sent and delayed none of them. -/
structure Counted (limit : Nat) (n : NetworkBottleneck) (l : List Crossing) : Prop where
  delays : n.aggregateDelayQueue.items = 0
  base : ∀ c, n.aggregateBaseDelay c = 0
  limit : n.ppsLimit = limit
  second : ∀ c, (n.window c).window = Duration.fromMillis 1000
  windows : ∀ c, (n.window c).Counts (sentTimes c l)

/-- One more packet is within the limit where the packets of a second never exceed it. -/
theorem Counted.sent {limit : Nat} {n : NetworkBottleneck} {l : List Crossing}
    (h : Counted limit n l) {x : Crossing} (hlast : ∀ y ∈ l, y.sent.time ≤ x.sent.time)
    (hfew : Uncrowded ((Duration.fromMillis 1000 : Duration) : Int) limit
      ↑(sentTimes x.sent.client l ++ [x.sent.time])) :
    (n.sample x.sent.time x.sent.client).1.2 = none ∧
      Counted limit (n.sample x.sent.time x.sent.client).2 (l ++ [x]) := by
  have htimes : ∀ t ∈ sentTimes x.sent.client l, t ≤ x.sent.time := by
    intro t ht
    obtain ⟨y, hy, rfl⟩ := List.mem_map.mp ht
    exact hlast y (List.mem_filter.mp hy).1
  obtain ⟨hcount, hcounts, hwindow⟩ := (h.windows x.sent.client).add htimes
  have hwithin : ((n.window x.sent.client).add x.sent.time).1 ≤ n.ppsLimit := by
    rw [hcount, h.limit, h.second]
    exact hfew _
  obtain ⟨hfree, hsample⟩ := NetworkBottleneck.sample_within hwithin
  obtain ⟨hdelays, hbase, hlimit⟩ := NetworkBottleneck.setWindow_rest n x.sent.client
    ((n.window x.sent.client).add x.sent.time).2
  rw [hsample]
  refine ⟨hfree, ?_, ?_, ?_, ?_, ?_⟩
  · rw [hdelays]
    exact h.delays
  · intro c
    rw [hbase]
    exact h.base c
  · rw [hlimit]
    exact h.limit
  · intro c
    rw [NetworkBottleneck.window_setWindow]
    split
    · exact hwindow.trans (h.second x.sent.client)
    · exact h.second c
  · intro c
    rw [NetworkBottleneck.window_setWindow, sentTimes_concat]
    by_cases hc : c = x.sent.client
    · rw [if_pos hc, if_pos hc.symm, hc]
      exact hcounts
    · rw [if_neg hc, if_neg fun hc' => hc hc'.symm, List.append_nil]
      exact h.windows c

/-- The invariant of a run without machines, in which the sides send packets at these times. -/
structure Plain (limit : Nat) (packets : Bool → Multiset Instant) (cfg : Config R G)
    (l : List Crossing) : Prop where
  quiet : ∀ c, Quiet (cfg.sim.side c)
  network : Counted limit cfg.sim.network l
  past : ∀ x ∈ l, x.sent.time ≤ cfg.sim.currentTime
  events : ∀ e ∈ cfg.items, Packet e ∧ cfg.now ≤ e.time
  sent : ∀ c, unsent c cfg.items + ↑(sentTimes c l) = packets c
  prompt : ∀ x ∈ l, Packet x.sent ∧ x.bottleneck = 0 ∧ x.received.integrationDelay = 0

variable {limit : Nat} {packets : Bool → Multiset Instant}

/-- Picking moves one packet from the queue to the hand, or there is none left. -/
theorem Plain.picks {w w' : Sim R G} {p : Pick} {l : List Crossing} (hwf : w.sq.WellFormed)
    (h : Plain limit packets (.picking w) l) (hp : Picks w p w') :
    Plain limit packets (place w' p) l ∧
      (place w' p).stepsLeft < (Config.picking w).stepsLeft ∧
      (place w' p = .done w' → w'.sq.items = 0) := by
  have hlater : ∀ y ∈ w.sq.items, w.currentTime ≤ y.time := fun y hy => (h.events y hy).2
  rcases picks_quiet hwf h.quiet h.network.delays h.network.base hlater hp with
    ⟨rfl, rfl, hnone⟩ | ⟨e, k, c, rfl, rfl, hpeek, hfirst⟩
  · exact ⟨⟨h.quiet, h.network, h.past, h.events, h.sent, h.prompt⟩, Nat.succ_pos _,
      fun _ => hnone⟩
  · have hitems : e ::ₘ (w.sq.popped k c).items = w.sq.items := SimQueue.items_popped hpeek
    refine ⟨⟨h.quiet, h.network, h.past, ?_, ?_, h.prompt⟩, ?_, ?_⟩
    · intro y hy
      change y ∈ e ::ₘ (w.sq.popped k c).items at hy
      rw [hitems] at hy
      exact ⟨(h.events y hy).1, hfirst y hy⟩
    · intro c'
      change unsent c' (e ::ₘ (w.sq.popped k c).items) + _ = _
      rw [hitems]
      exact h.sent c'
    · change 2 * ((e ::ₘ (w.sq.popped k c).items).map SimEvent.ahead).sum < _
      rw [hitems]
      exact Nat.lt_succ_self _
    · intro hdone
      exact absurd hdone (by simp [place])

/-- Where the main loop is left without a limit, no packet is on its way. -/
theorem Plain.leaves {args : SimulatorArgs G} {w : Sim R G} {l : List Crossing}
    (hargs : args.maxTraceLength = 0 ∧ args.maxSimIterations = 0) (hwf : w.sq.WellFormed)
    (h : Plain limit packets (.done w) l) (hleaves : Leaves args w) :
    ∀ e ∈ w.sq.items, e.event = .normalRecv := by
  have hdone : w.sq.noNormalPackets = true := by
    rcases hleaves with (⟨hmax, _⟩ | ⟨hmax, _⟩) | ⟨_, hdone⟩
    · exact absurd hmax (by simp [hargs.1])
    · exact absurd hmax (by simp [hargs.2])
    · exact hdone
  obtain ⟨hnone, _⟩ := (SimQueue.noNormalPackets_iff hwf).mp hdone
  intro e he
  obtain ⟨hp, _⟩ := h.events e he
  obtain ⟨c, k, hk⟩ := SimQueue.mem_items.mp he
  have hhome := (hwf c k e hk).1
  rcases hp.kind with hev | hev | hev | hev
  · have hbase : k = .base := hhome.symm.trans (by simp [SimEvent.home, hev])
    subst hbase
    exact absurd ⟨c, .inl ⟨e, hk, hev⟩⟩ hnone
  · refine absurd ⟨c, .inr (.inl ⟨e, ?_, hev, hp.normal⟩)⟩ hnone
    have hqueue : k = if e.bypass then .bypassable else .blocking :=
      hhome.symm.trans (by simp [SimEvent.home, hev])
    rw [hqueue] at hk
    split at hk
    · exact Multiset.mem_add.mpr (.inr hk)
    · exact Multiset.mem_add.mpr (.inl hk)
  · have hinternal : k = .internal := hhome.symm.trans (by simp [SimEvent.home, hev])
    subst hinternal
    exact absurd ⟨c, .inr (.inr ⟨e, hk, hev, hp.normal⟩)⟩ hnone
  · exact hev

/-- A packet in hand that goes into the tunnel is within the limit of the bottleneck. -/
theorem Plain.crossing {w : Sim R G} {e : SimEvent} {l : List Crossing}
    (hfew : ∀ c, Uncrowded ((Duration.fromMillis 1000 : Duration) : Int) limit (packets c))
    (h : Plain limit packets (.returned e w) l) (hnow : w.currentTime ≤ e.time)
    (he : e.event = .tunnelSent) {x : Crossing} (hx : x.sent = e) :
    (w.network.sample e.time e.client).1.2 = none ∧
      Counted limit (w.network.sample e.time e.client).2 (l ++ [x]) := by
  subst hx
  have hsent : unsent x.sent.client (x.sent ::ₘ w.sq.items) + ↑(sentTimes x.sent.client l) =
      packets x.sent.client := h.sent x.sent.client
  have hpart : ↑(sentTimes x.sent.client l ++ [x.sent.time]) ≤ packets x.sent.client := by
    rw [← hsent, ← Multiset.singleton_add, unsent_add, unsent_singleton,
      if_pos ⟨rfl, .inr he⟩, ← Multiset.coe_add, Multiset.coe_singleton, add_comm, add_assoc]
    exact add_le_add_right (Multiset.le_add_left _ _) _
  have hpast : ∀ y ∈ l, y.sent.time ≤ x.sent.time := fun y hy => (h.past y hy).trans hnow
  have hbefore : Counted limit w.network l := h.network
  exact hbefore.sent hpast ((hfew x.sent.client).of_le hpart)

variable [RngCore R]

/-- An iteration takes the packet in hand one step further, and the bottleneck is no matter. -/
theorem Plain.iterates {args : SimulatorArgs G} {w w' : Sim R G} {e : SimEvent} {stop : Bool}
    {cfg : Config R G} {l : List Crossing}
    (hfew : ∀ c, Uncrowded ((Duration.fromMillis 1000 : Duration) : Int) limit (packets c))
    (h : Plain limit packets (.returned e w) l) (hit : w.iterate args e = .ok (stop, w'))
    (hcfg : cfg = .picking w' ∨ cfg = .done w') :
    Plain limit packets cfg (crossed l (.returned e w)) ∧
      cfg.stepsLeft < (Config.returned e w).stepsLeft := by
  have hiterates := (iterate_ok hit).1
  have hquiet : ∀ c, Quiet (w.side c) := h.quiet
  obtain ⟨a, w1, hs, hsq, hnetwork, htime, hquiet'⟩ := iterates_quiet hquiet hiterates
  have hhand : e ∈ e ::ₘ w.sq.items := Multiset.mem_cons_self e _
  obtain ⟨hp, _⟩ := h.events e hhand
  let sending : Sim R G := { w with currentTime := e.time }
  have hsending : ∀ c, Quiet (sending.side c) := by
    intro c
    cases c
    · exact hquiet false
    · exact hquiet true
  obtain ⟨hitems, hnetwork1⟩ := sends_follow hp hs
  obtain ⟨hfollow, hahead⟩ := follow_packet (w := sending) hp hsending rfl
  have hitems' : w'.sq.items = sending.follow e + w.sq.items := hsq ▸ hitems
  have hsteps : (Config.picking w').stepsLeft < (Config.returned e w).stepsLeft := by
    change 2 * (w'.sq.items.map SimEvent.ahead).sum + 1 <
      2 * ((e ::ₘ w.sq.items).map SimEvent.ahead).sum
    rw [hitems', Multiset.map_add, Multiset.sum_add, Multiset.map_cons, Multiset.sum_cons]
    omega
  have hevents : ∀ y ∈ w'.sq.items, Packet y ∧ w'.currentTime ≤ y.time := by
    intro y hy
    rw [hitems'] at hy
    rw [htime]
    rcases Multiset.mem_add.mp hy with hy | hy
    · exact hfollow y hy
    · exact h.events y (Multiset.mem_cons_of_mem hy)
  have hcons (c : Bool) : unsent c (e ::ₘ w.sq.items) = unsent c w'.sq.items +
      if e.event = .tunnelSent ∧ e.client = c then {e.time} else 0 := by
    rw [← Multiset.singleton_add, unsent_add, unsent_follow (w := sending) hp, hitems',
      unsent_add]
    ac_rfl
  have hsent (c : Bool) : unsent c (e ::ₘ w.sq.items) + ↑(sentTimes c l) = packets c := h.sent c
  have hnow : w.currentTime ≤ e.time := hiterates.forward
  have hpast : ∀ x ∈ l, x.sent.time ≤ e.time := fun x hx => (h.past x hx).trans hnow
  have hnext : Plain limit packets (.picking w' : Config R G) (crossed l (.returned e w)) := by
    by_cases he : e.event = .tunnelSent
    · let x : Crossing := ⟨e, sending.received e, sending.bottleneck e⟩
      obtain ⟨hfree, hcounted⟩ := h.crossing hfew hnow he (x := x) rfl
      rw [if_pos he] at hnetwork1
      have hafter := hnetwork1.trans (sendPacket_network (w := sending) hfree)
      rw [crossed_sent he]
      refine ⟨hquiet', ?_, ?_, hevents, ?_, ?_⟩
      · exact (hnetwork.trans hafter).symm ▸ hcounted
      · intro y hy
        change y.sent.time ≤ w'.currentTime
        rw [htime]
        rcases List.mem_append.mp hy with hy | hy
        · exact hpast y hy
        · rw [List.mem_singleton.mp hy]
      · intro c
        change unsent c w'.sq.items + _ = _
        rw [sentTimes_concat, ← hsent, hcons]
        by_cases hc : e.client = c
        · rw [if_pos hc, if_pos ⟨he, hc⟩, ← Multiset.coe_add, Multiset.coe_singleton]
          ac_rfl
        · rw [if_neg hc, if_neg fun hboth => hc hboth.2, List.append_nil, add_zero]
      · intro y hy
        rcases List.mem_append.mp hy with hy | hy
        · exact h.prompt y hy
        · rw [List.mem_singleton.mp hy]
          refine ⟨hp, congrArg (·.getD 0) hfree, ?_⟩
          exact congrArg Prod.fst ((hsending !e.client).draws (·.reportingDelay) sending.rng)
    · rw [if_neg he] at hnetwork1
      rw [crossed_other he]
      refine ⟨hquiet', ?_, ?_, hevents, ?_, h.prompt⟩
      · exact (hnetwork.trans hnetwork1).symm ▸ h.network
      · exact htime.symm ▸ hpast
      · intro c
        change unsent c w'.sq.items + _ = _
        rw [← hsent, hcons, if_neg fun hboth => he hboth.1, add_zero]
  rcases hcfg with rfl | rfl
  · exact ⟨hnext, hsteps⟩
  · exact ⟨⟨hnext.quiet, hnext.network, hnext.past, hnext.events, hnext.sent, hnext.prompt⟩,
      Nat.lt_of_le_of_lt (Nat.zero_le _) hsteps⟩

theorem ahead_pos (e : SimEvent) : 0 < e.ahead := by
  unfold SimEvent.ahead
  split <;> decide

/-- Fuel that is left over makes no difference. -/
theorem run_mono {args : SimulatorArgs G} {cfg : Config R G} {w : Sim R G} {n m : Nat}
    (h : cfg.run args n = .ok w) (hle : n ≤ m) : cfg.run args m = .ok w := by
  have hdone {w' : Sim R G} {n m : Nat} (h : (Config.done w').run args n = .ok w) :
      (Config.done w').run args m = .ok w := by
    have hw : w' = w := by
      cases n <;> exact pure_ok.mp h
    subst hw
    cases m <;> rfl
  induction n generalizing cfg m with
  | zero =>
    cases cfg with
    | picking w' => exact absurd h (by simp [run])
    | returned e w' => exact absurd h (by simp [run])
    | done w' => exact hdone h
  | succ n ih =>
    obtain ⟨m, rfl⟩ := Nat.exists_eq_add_of_le' (Nat.lt_of_lt_of_le (Nat.succ_pos n) hle)
    have hstep (h : (cfg.next args >>= fun c => c.run args n) = .ok w) :
        (cfg.next args >>= fun c => c.run args m) = .ok w := by
      obtain ⟨cfg', hnext, hrun⟩ := bind_ok.mp h
      exact (bind_eq hnext).trans (ih hrun (Nat.le_of_succ_le_succ hle))
    cases cfg with
    | picking w' => exact hstep h
    | returned e w' => exact hstep h
    | done w' => exact hdone h

/-- A step of a run without machines keeps the invariant and comes closer to the end. -/
theorem Plain.next {args : SimulatorArgs G} {sq : SimQueue} (hwf : sq.WellFormed)
    (hargs : args.maxTraceLength = 0 ∧ args.maxSimIterations = 0)
    (hfew : ∀ c, Uncrowded ((Duration.fromMillis 1000 : Duration) : Int) limit (packets c))
    {cfg cfg' : Config R G} {l : List Crossing} (hr : Reachable args sq cfg)
    (h : Plain limit packets cfg l) (hnext : cfg.next args = .ok cfg')
    (hrun : ∀ w, cfg ≠ .done w) :
    Plain limit packets cfg' (crossed l cfg) ∧ cfg'.stepsLeft < cfg.stepsLeft ∧
      ∀ w, cfg' = .done w → ∀ e ∈ w.sq.items, e.event = .normalRecv := by
  have hwf' : cfg'.sim.sq.WellFormed := reachable_wellFormed (.next hr ⟨trivial, hnext⟩) hwf
  cases cfg with
  | picking w =>
    obtain ⟨p, w', hstep, rfl⟩ := next_picking hnext
    obtain ⟨hplain, hsteps, hnone⟩ :=
      h.picks (reachable_wellFormed hr hwf) (pickStep_ok hstep)
    refine ⟨hplain, hsteps, ?_⟩
    intro w1 hdone e he
    have hw : w1 = w' := by
      have hsim := congrArg Config.sim hdone
      rw [place_sim] at hsim
      exact hsim.symm
    subst hw
    rw [hnone hdone] at he
    exact absurd he (Multiset.notMem_zero e)
  | returned e w =>
    simp only [Config.next, bind_ok] at hnext
    obtain ⟨⟨stop, w'⟩, hit, hcfg⟩ := hnext
    have hcfg := pure_ok.mp hcfg
    have hcases : cfg' = .picking w' ∨ cfg' = .done w' := by
      cases stop with
      | true => exact .inr hcfg.symm
      | false => exact .inl hcfg.symm
    obtain ⟨hplain, hsteps⟩ := h.iterates hfew hit hcases
    refine ⟨hplain, hsteps, ?_⟩
    rintro w1 rfl
    cases stop with
    | false => exact absurd hcfg (by simp)
    | true =>
      obtain rfl := Config.done.inj hcfg
      exact hplain.leaves hargs hwf' ((iterate_ok hit).2.mp rfl)
  | done w => exact absurd rfl (hrun w)

/-- A run without machines comes to its end within the steps that its packets have ahead. -/
theorem Plain.run {args : SimulatorArgs G} {sq : SimQueue} (hwf : sq.WellFormed)
    (hargs : args.maxTraceLength = 0 ∧ args.maxSimIterations = 0)
    (hfew : ∀ c, Uncrowded ((Duration.fromMillis 1000 : Duration) : Int) limit (packets c))
    {fuel : Nat} {cfg : Config R G} {l : List Crossing} (hr : Crossed args sq (cfg, l))
    (h : Plain limit packets cfg l)
    (hover : ∀ w, cfg = .done w → ∀ e ∈ w.sq.items, e.event = .normalRecv)
    (hfuel : cfg.stepsLeft ≤ fuel) :
    ∃ w l', cfg.run args fuel = .ok w ∧ Crossed args sq (.done w, l') ∧
      Plain limit packets (.done w) l' ∧ ∀ e ∈ w.sq.items, e.event = .normalRecv := by
  induction fuel generalizing cfg l with
  | zero =>
    cases cfg with
    | picking w => exact absurd hfuel (Nat.not_succ_le_zero _)
    | returned e w =>
      have hpos := ahead_pos e
      change 2 * ((e ::ₘ w.sq.items).map SimEvent.ahead).sum ≤ 0 at hfuel
      rw [Multiset.map_cons, Multiset.sum_cons] at hfuel
      omega
    | done w => exact ⟨w, l, rfl, hr, h, hover w rfl⟩
  | succ fuel ih =>
    have hreach : Reachable args sq cfg := Crossed.reachable hr
    obtain ⟨cfg', hnext, _⟩ := next_total args (reachable_sound hwf hreach)
      (reachable_wellFormed hreach hwf) (run_ahead hwf hreach).1
    have hstep (hrun : ∀ w, cfg ≠ .done w) : ∃ w l',
        (cfg.next args >>= fun c => c.run args fuel) = .ok w ∧ Crossed args sq (.done w, l') ∧
          Plain limit packets (.done w) l' ∧ ∀ e ∈ w.sq.items, e.event = .normalRecv := by
      obtain ⟨hplain, hsteps, hover'⟩ := h.next hwf hargs hfew hreach hnext hrun
      rw [bind_eq hnext]
      exact ih (.next hr ⟨hnext, rfl⟩) hplain hover' (by omega)
    cases cfg with
    | picking w => exact hstep (by simp)
    | returned e w => exact hstep (by simp)
    | done w => exact ⟨w, l, rfl, hr, h, hover w rfl⟩

end Config

end Maybenot

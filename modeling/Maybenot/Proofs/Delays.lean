import Maybenot.Proofs.Burst
import Maybenot.Proofs.Plain
import Maybenot.Proofs.Progress
import Maybenot.Proofs.Shifted

namespace Maybenot
open Lib

variable {R G : Type}

namespace Sim

section Replaced

/-- One side's first blocked packet leaves the buffered ones when it is popped. -/
theorem buffered_popped {sq : SimQueue} {c flag : Bool} {e : SimEvent} {k : Queue}
    (h : peekBlocking (sq.side c) flag = (some e, k)) :
    ((sq.popped k c).side c).buffered = (sq.side c).buffered.erase e ∧
      ((sq.popped k c).side c).base = (sq.side c).base := by
  obtain ⟨hhead, hk⟩ := peekBlocking_ok h
  have hitems := BinaryHeap.items_pop hhead
  have hside : (sq.popped k c).side c = (sq.side c).setHeap k ((sq.side c).heap k).pop.2 := by
    rw [SimQueue.popped, SimQueue.side_setSide, if_pos rfl]
  rw [hside]
  rcases hk with rfl | ⟨_, rfl⟩
  · change (sq.side c).blocking.items = _ at hitems
    refine ⟨?_, rfl⟩
    rw [EventQueue.buffered, EventQueue.buffered, hitems, Multiset.cons_add,
      Multiset.erase_cons_head]
    rfl
  · change (sq.side c).bypassable.items = _ at hitems
    refine ⟨?_, rfl⟩
    rw [EventQueue.buffered, EventQueue.buffered, hitems, Multiset.add_cons,
      Multiset.erase_cons_head]
    rfl

/-- The delays that are going to shift base events. -/
def pending (w : Sim R G) : Multiset PendingAggregateDelay := w.network.aggregateDelayQueue.items

theorem pending_push (n : NetworkBottleneck) (d : Duration) (t : Instant) (c : Bool) :
    n.aggregateDelayQueue.items < (n.pushAggregateDelay d t c).aggregateDelayQueue.items := by
  obtain ⟨client, server, hitems⟩ := pushAggregateDelay_items n d t c
  rw [hitems]
  exact lt_trans (Multiset.lt_cons_self _ _) (Multiset.lt_cons_self _ _)

/-- The delay that a packet in the place of padding is charged with. -/
def replaceDelay (w : Sim R G) (e queued : SimEvent) (k : Queue) : Option Duration :=
  aggDelayOnPaddingBypassReplace (w.sq.popped k e.client) e.client w.currentTime
    { queued with bypass := true, replace := false } (w.network.aggregateBaseDelay e.client)

/-- The padding takes the place of a normal packet that no other buffered packet and no base
event is close to. -/
def Charges (w : Sim R G) (e : SimEvent) : Prop :=
  e.replace = true ∧ e.bypass = true ∧ ∃ queued k, w.Replaceable e queued k ∧
    (∀ y ∈ (w.sq.side e.client).buffered.erase queued,
      queued.time + Duration.fromMillis 100 < y.time) ∧
    (w.sq.side e.client).baseNear (w.network.aggregateBaseDelay e.client) queued.time = false

theorem replaceDelay_none {w : Sim R G} {e queued : SimEvent} {k : Queue}
    (hq : w.Replaceable e queued k) : w.replaceDelay e queued k = none ↔
      ¬ ((∀ y ∈ (w.sq.side e.client).buffered.erase queued,
          queued.time + Duration.fromMillis 100 < y.time) ∧
        (w.sq.side e.client).baseNear (w.network.aggregateBaseDelay e.client) queued.time =
          false) := by
  obtain ⟨hbuffered, hbase⟩ := buffered_popped hq.1
  have hadjacent := ((w.sq.popped k e.client).side e.client).any_within
    (Duration.fromMillis 100) queued.time
  rw [hbuffered] at hadjacent
  unfold replaceDelay aggDelayOnPaddingBypassReplace
  dsimp only
  rw [EventQueue.baseNear_eq, EventQueue.baseNear, hbase, ← EventQueue.baseNear]
  split
  · rename_i hany
    exact iff_of_true rfl fun h => hadjacent.mp hany h.1
  · rename_i hany
    have hfar := not_not.mp (hadjacent.not.mp hany)
    split
    · rename_i hnear
      exact iff_of_true rfl fun h => by simp [hnear] at h
    · rename_i hnear
      exact iff_of_false (by simp) fun h => h ⟨hfar, by simpa using hnear⟩

theorem replacePadding_pending {w w' : Sim R G} {e queued : SimEvent} {k : Queue}
    (hq : w.Replaceable e queued k) (hb : e.bypass = true)
    (h : w.replacePadding e = .ok (some w')) :
    w'.network = (w.replaceDelay e queued k).elim w.network
      fun d => w.network.pushAggregateDelay d w.currentTime e.client := by
  obtain ⟨sq', hpop⟩ := popBlocking_total (w.network.aggregateBaseDelay e.client) hq.1
  obtain ⟨_, rfl⟩ := popBlocking_ok hq.1 hpop
  unfold replacePadding at h
  dsimp only at h
  rw [hq.1] at h
  dsimp only at h
  rw [if_pos hq.2, if_pos hb, hpop] at h
  obtain rfl := Option.some.inj (pure_ok.mp h)
  dsimp only [Sim.note]
  unfold replaceDelay
  split
  · rename_i d hd
    rw [hd]
    rfl
  · rename_i hd
    rw [hd]
    rfl

/-- Padding leaves the pending delays alone exactly if it does not charge a packet. -/
theorem padding_pending {w w' : Sim R G} {e : SimEvent} {machine : MachineId} {a : Bool}
    (he : e.event = .paddingSent machine) (h : w.simNetworkStack e = .ok (a, w')) :
    w.pending ≤ w'.pending ∧ (w'.pending = w.pending ↔ ¬ w.Charges e) := by
  have hkeep (hnet : w'.network = w.network) (hno : ¬ w.Charges e) :
      w.pending ≤ w'.pending ∧ (w'.pending = w.pending ↔ ¬ w.Charges e) := by
    rw [pending, pending, hnet]
    exact ⟨le_refl _, iff_of_true rfl hno⟩
  unfold simNetworkStack at h
  rw [he] at h
  dsimp only at h
  by_cases hr : e.replace = true
  · rw [if_pos hr] at h
    obtain ⟨answer, ha, h⟩ := bind_ok.mp h
    rcases replacePadding_ok ha with ⟨rfl, hno⟩ | ⟨queued, k, hq, ⟨hb, rfl⟩ | ⟨hb, _, _, rfl⟩⟩
    · obtain ⟨_, rfl⟩ := Prod.mk.inj (pure_ok.mp h)
      apply hkeep rfl
      intro hc
      obtain ⟨_, _, queued, k, hq, _⟩ := hc
      exact hno queued k hq
    · obtain ⟨_, rfl⟩ := Prod.mk.inj (pure_ok.mp h)
      exact hkeep rfl fun hc => absurd hc.2.1 (by simp [hb])
    · obtain ⟨_, rfl⟩ := Prod.mk.inj (pure_ok.mp h)
      have hnet := replacePadding_pending hq hb ha
      have hdelay := replaceDelay_none hq
      cases hd : w.replaceDelay e queued k with
      | none =>
        rw [hd] at hnet
        apply hkeep hnet
        intro hc
        obtain ⟨_, _, queued', k', hq', hfar⟩ := hc
        obtain rfl := Option.some.inj (congrArg Prod.fst (hq.1.symm.trans hq'.1))
        exact hdelay.mp hd hfar
      | some d =>
        rw [hd] at hnet
        have hlt := pending_push w.network d w.currentTime e.client
        have hsome : w.replaceDelay e queued k ≠ none := hd ▸ Option.some_ne_none d
        rw [pending, pending, hnet]
        refine ⟨le_of_lt hlt, iff_of_false (ne_of_gt hlt) ?_⟩
        intro hno
        exact hno ⟨hr, hb, queued, k, hq, not_not.mp (hdelay.not.mp hsome)⟩
  · rw [if_neg hr] at h
    obtain ⟨_, rfl⟩ := Prod.mk.inj (pure_ok.mp h)
    exact hkeep rfl fun hc => hr hc.1

/-- A side is blocked, and nothing may bypass the blocking. -/
def HeldFast (w : Sim R G) (c : Bool) : Prop :=
  (w.side c).blockingUntil.isSome = true ∧ (w.side c).blockingBypassable = false

/-- Events that pass the network stack one after the other, each at its time. -/
def stackAll (w : Sim R G) : List (Instant × SimEvent) → Exec (Sim R G)
  | [] => return w
  | (t, e) :: rest => do
    let (_, w) ← { w with currentTime := t }.simNetworkStack e
    w.stackAll rest

/-- None of the events charges a packet when its turn comes. -/
def NoneCharges (w : Sim R G) : List (Instant × SimEvent) → Prop
  | [] => True
  | (t, e) :: rest => ¬ { w with currentTime := t }.Charges e ∧
    ∀ a w', { w with currentTime := t }.simNetworkStack e = .ok (a, w') → w'.NoneCharges rest

theorem stackAll_pending {w : Sim R G} {c : Bool} {events : List (Instant × SimEvent)}
    (hheld : w.HeldFast c)
    (hpad : ∀ x ∈ events, x.2.client = c ∧ ∃ machine, x.2.event = .paddingSent machine) :
    ∃ w', w.stackAll events = .ok w' ∧ w'.HeldFast c ∧ w.pending ≤ w'.pending ∧
      (w'.pending = w.pending ↔ w.NoneCharges events) := by
  induction events generalizing w with
  | nil => exact ⟨w, rfl, hheld, le_refl _, iff_of_true rfl trivial⟩
  | cons x rest ih =>
    obtain ⟨t, e⟩ := x
    obtain ⟨_, machine, he⟩ := hpad _ List.mem_cons_self
    obtain ⟨⟨a, w1⟩, hstep⟩ := simNetworkStack_total { w with currentTime := t } e
    obtain ⟨hle, hiff⟩ := padding_pending he hstep
    have hside : w1.side c = w.side c := (sends_side (simNetworkStack_ok hstep) c).trans (by
      cases c <;> rfl)
    have hheld1 : w1.HeldFast c := by
      unfold HeldFast
      rw [hside]
      exact hheld
    obtain ⟨w', hrest, hheld', hle', hiff'⟩ :=
      ih hheld1 fun y hy => hpad y (List.mem_cons_of_mem _ hy)
    refine ⟨w', (bind_eq hstep).trans hrest, hheld', le_trans hle hle', ?_⟩
    constructor
    · intro heq
      have h1 : w1.pending = w.pending := le_antisymm (heq ▸ hle') hle
      refine ⟨hiff.mp h1, fun a' w2 hw2 => ?_⟩
      obtain ⟨_, rfl⟩ := Prod.mk.inj (Except.ok.inj (hstep.symm.trans hw2))
      exact hiff'.mp (heq.trans h1.symm)
    · intro h
      exact (hiff'.mpr (h.2 a w1 hstep)).trans (hiff.mpr h.1)

/-- While a side is blocked and nothing may bypass, its padding adds no delay exactly as long as
none charges a packet, which stays blocked. -/
theorem blocked_padding_no_delay {w : Sim R G} {c : Bool} {events : List (Instant × SimEvent)}
    (hheld : w.HeldFast c)
    (hpad : ∀ x ∈ events, x.2.client = c ∧ ∃ machine, x.2.event = .paddingSent machine) :
    ∃ w', w.stackAll events = .ok w' ∧ w'.HeldFast c ∧
      (w'.pending = w.pending ↔ w.NoneCharges events) := by
  obtain ⟨w', hrun, hheld', _, hiff⟩ := stackAll_pending hheld hpad
  exact ⟨w', hrun, hheld', hiff⟩

/-- The client holds the packets back until the time 1000000000, and nothing may bypass. -/
def heldFast (times : List Instant) : Sim Unit Unit where
  sq := heldAt times
  client := { View.sideUntil (some 1000000000) with blockingBypassable := false }
  server := View.sideUntil none
  network := {
    clientAggregateBaseDelay := 0, serverAggregateBaseDelay := 0, aggregateDelayQueue := .new
    network := ⟨10000000, none⟩, clientWindow := .new 1000000000, serverWindow := .new 1000000000
    ppsAddedDelay := 1000000000, ppsLimit := 1, pushes := [] }
  currentTime := 0
  rng := ()
  trace := []
  simIterations := 0
  log := []

/-- Padding of the client that may bypass and be replaced. -/
def swapPadding (t : Instant) : SimEvent := ⟨.paddingSent 0, t, 0, true, true, true, true⟩

/-- Each padding charges the one packet anew, and it stays blocked. -/
theorem held_packet_charged : (heldFast [0]).HeldFast true ∧ (heldFast [0]).pending.card = 0 ∧
    ((heldFast [0]).stackAll [(200000000, swapPadding 200000000)]).map
      (fun w => (w.pending.card, (w.sq.side true).buffered.card)) = .ok (2, 1) ∧
    ((heldFast [0]).stackAll [(200000000, swapPadding 200000000),
        (300000000, swapPadding 300000000)]).map
      (fun w => (w.pending.card, (w.sq.side true).buffered.card)) = .ok (4, 1) := by
  refine ⟨⟨rfl, rfl⟩, ?_, ?_, ?_⟩ <;> decide +kernel

/-- A second packet next to the first keeps the padding from charging it. -/
theorem next_packet_uncharged : ∃ w',
    (heldFast [0, 50000000]).stackAll [(200000000, swapPadding 200000000)] = .ok w' ∧
      w'.HeldFast true ∧ (w'.pending = (heldFast [0, 50000000]).pending ↔
        (heldFast [0, 50000000]).NoneCharges [(200000000, swapPadding 200000000)]) :=
  blocked_padding_no_delay ⟨rfl, rfl⟩ (by
    intro x hx
    obtain rfl := List.mem_singleton.mp hx
    exact ⟨rfl, 0, rfl⟩)

end Replaced

section Congestion

/-- Two states agree on the time, the limit and all that one side owns. -/
structure SameSender (c : Bool) (w w' : Sim R G) : Prop where
  queues : w'.sq.side c = w.sq.side c
  window : w'.network.window c = w.network.window c
  delay : w'.network.aggregateBaseDelay c = w.network.aggregateBaseDelay c
  time : w'.currentTime = w.currentTime
  limit : w'.network.ppsLimit = w.network.ppsLimit
  added : w'.network.ppsAddedDelay = w.network.ppsAddedDelay

/-- The pending delays after the one that is pushed for a packet of a side, if any. -/
def pendingWith (w : Sim R G) (c : Bool) (delay : Option Duration) :
    Multiset PendingAggregateDelay :=
  delay.elim w.pending fun d =>
    (w.network.pushAggregateDelay d w.currentTime c).aggregateDelayQueue.items

/-- The network stack pushes this delay for an event, or none. -/
def Decides (w : Sim R G) (e : SimEvent) (delay : Option Duration) : Prop :=
  ∃ a w', w.simNetworkStack e = .ok (a, w') ∧ w'.pending = w.pendingWith e.client delay

theorem pendingWith_injective {w : Sim R G} {c : Bool} {o o' : Option Duration}
    (h : w.pendingWith c o = w.pendingWith c o') : o = o' := by
  have hne (d : Duration) : w.pending ≠ w.pendingWith c (some d) :=
    ne_of_lt (pending_push w.network d w.currentTime c)
  cases o with
  | none =>
    cases o' with
    | none => rfl
    | some d => exact absurd h (hne d)
  | some d =>
    cases o' with
    | none => exact absurd h.symm (hne d)
    | some d' =>
      obtain ⟨x, y, hitems⟩ := pushAggregateDelay_items w.network d w.currentTime c
      obtain ⟨x', y', hitems'⟩ := pushAggregateDelay_items w.network d' w.currentTime c
      have hsum := congrArg (total true) (hitems.symm.trans (h.trans hitems'))
      simp only [total_cons] at hsum
      simpa using hsum

/-- How much the bottleneck delays a packet that is sent now. -/
def excess (w : Sim R G) (c : Bool) : Duration :=
  w.network.surcharge ((w.network.window c).add w.currentTime).1

/-- The packet is sent by the client, it is within the limit, another one is buffered right
after it, or no base event is near it even unmoved. -/
def OwnSide (w : Sim R G) (e : SimEvent) : Prop :=
  e.client = true ∨ w.excess e.client = 0 ∨
    (∃ y ∈ (w.sq.side e.client).buffered, y.time ≤ e.time + Duration.fromMillis 100) ∨
    ∀ base, (w.sq.side e.client).base.peek = some base →
      e.time + Duration.fromMillis 1 < base.time

theorem shouldDelayed_iff {sq : SimQueue} {c : Bool} {e : SimEvent} {delay : Duration} :
    shouldDelayedPacketPropAggDelay sq c e delay = true ↔
      (∀ y ∈ (sq.side c).buffered, e.time + Duration.fromMillis 100 < y.time) ∧
        (sq.side c).baseNear delay e.time = false := by
  have hadjacent := (sq.side c).any_within (Duration.fromMillis 100) e.time
  unfold shouldDelayedPacketPropAggDelay
  dsimp only
  rw [EventQueue.baseNear_eq]
  split
  · rename_i hany
    exact iff_of_false (by simp) fun h => hadjacent.mp hany h.1
  · rename_i hany
    rw [Bool.not_eq_true']
    exact ⟨fun h => ⟨not_not.mp (hadjacent.not.mp hany), h⟩, fun h => h.2⟩

/-- A packet over the limit delays base events, if the code is given this delay of theirs. -/
def Spreads (w : Sim R G) (e : SimEvent) (delay : Duration) : Prop :=
  0 < w.excess e.client ∧
    (∀ y ∈ (w.sq.side e.client).buffered, e.time + Duration.fromMillis 100 < y.time) ∧
    (w.sq.side e.client).baseNear delay e.time = false

instance (w : Sim R G) (e : SimEvent) (delay : Duration) : Decidable (w.Spreads e delay) :=
  inferInstanceAs (Decidable (_ ∧ _))

/-- The network stack sends a packet on to the other side. -/
theorem stack_sent (w : Sim R G) {e : SimEvent} (he : e.event = .tunnelSent) :
    w.simNetworkStack e = .ok (true, w.sendPacket e) := by
  unfold simNetworkStack
  rw [he]
  rfl

/-- The code decides with the delay of the client's base events, whoever sends. -/
theorem decides_iff {w : Sim R G} {e : SimEvent} {o : Option Duration}
    (he : e.event = .tunnelSent) : w.Decides e o ↔
      o = if w.Spreads e w.network.clientAggregateBaseDelay then some (w.excess e.client)
        else none := by
  have hsend : (w.sendPacket e).pending = w.pendingWith e.client
      (if w.Spreads e w.network.clientAggregateBaseDelay then some (w.excess e.client)
        else none) := by
    have hsame := w.network.delays_sample w.currentTime e.client
    have hbase : (w.network.sample w.currentTime e.client).2.clientAggregateBaseDelay =
      w.network.clientAggregateBaseDelay := NetworkBottleneck.delays_base hsame true
    have hsample : (w.network.sample w.currentTime e.client).1.2 =
        if w.excess e.client > 0 then some (w.excess e.client) else none := by
      rw [NetworkBottleneck.sample_eq]
      rfl
    unfold pending sendPacket
    dsimp only [Sim.pushSim]
    by_cases hover : w.excess e.client > 0
    · rw [if_pos hover] at hsample
      rw [hsample]
      dsimp only
      rw [hbase]
      by_cases hs : shouldDelayedPacketPropAggDelay w.sq e.client e
          w.network.clientAggregateBaseDelay = true
      · rw [if_pos hs, if_pos ⟨hover, shouldDelayed_iff.mp hs⟩]
        exact congrArg (·.items) (NetworkBottleneck.delays_queue
          (NetworkBottleneck.delays_push hsame _ _ _))
      · rw [if_neg hs, if_neg fun h => hs (shouldDelayed_iff.mpr h.2)]
        exact congrArg (·.items) (NetworkBottleneck.delays_queue hsame)
    · rw [if_neg hover] at hsample
      rw [hsample, if_neg fun h => hover h.1]
      exact congrArg (·.items) (NetworkBottleneck.delays_queue hsame)
  constructor
  · intro h
    obtain ⟨a, w', hw', hp⟩ := h
    obtain ⟨_, rfl⟩ := Prod.mk.inj (Except.ok.inj ((stack_sent w he).symm.trans hw'))
    exact pendingWith_injective (hp.symm.trans hsend)
  · intro ho
    subst ho
    exact ⟨true, _, stack_sent w he, hsend⟩

theorem SameSender.excess {w w' : Sim R G} {c : Bool} (h : SameSender c w w') :
    w'.excess c = w.excess c := by
  unfold Sim.excess NetworkBottleneck.surcharge
  rw [h.window, h.time, h.limit, h.added]

theorem SameSender.spreads {w w' : Sim R G} {e : SimEvent} (h : SameSender e.client w w')
    (delay : Duration) : w'.Spreads e delay ↔ w.Spreads e delay := by
  unfold Spreads
  rw [h.excess, h.queues]

/-- Where the sender is the server, the delay that the code is given only matters for a base
event that is near if nothing moves it. -/
theorem spreads_any {w : Sim R G} {e : SimEvent} (h : w.excess e.client = 0 ∨
      (∃ y ∈ (w.sq.side e.client).buffered, y.time ≤ e.time + Duration.fromMillis 100) ∨
      ∀ base, (w.sq.side e.client).base.peek = some base →
        e.time + Duration.fromMillis 1 < base.time) {d d' : Duration} (hs : w.Spreads e d) :
    w.Spreads e d' := by
  obtain ⟨hover, hfar, hnear⟩ := hs
  refine ⟨hover, hfar, ?_⟩
  rcases h with h | ⟨y, hy, hle⟩ | h
  · exact absurd h (Nat.pos_iff_ne_zero.mp hover)
  · exact absurd hle (not_le.mpr (hfar y hy))
  · unfold EventQueue.baseNear
    cases hp : (w.sq.side e.client).base.peek with
    | none => rfl
    | some base =>
      rw [Option.any_some, decide_eq_false_iff_not]
      have hlt := h base hp
      lia

/-- The same state with another delay of the client's base events. -/
def withClientDelay (w : Sim R G) (delay : Duration) : Sim R G :=
  { w with network := { w.network with clientAggregateBaseDelay := delay } }

theorem withClientDelay_same (w : Sim R G) (delay : Duration) :
    SameSender false w (w.withClientDelay delay) := ⟨rfl, rfl, rfl, rfl, rfl, rfl⟩

theorem withClientDelay_spreads (w : Sim R G) (e : SimEvent) (delay d : Duration) :
    (w.withClientDelay delay).Spreads e d ↔ w.Spreads e d := by
  unfold Spreads Sim.excess
  cases e.client <;> exact Iff.rfl

/-- The delay of the client's base events makes a difference for the server's packet. -/
theorem other_side_matters {w : Sim R G} {e : SimEvent} (h : ¬ w.OwnSide e) :
    ∃ near far, ¬ w.Spreads e near ∧ w.Spreads e far := by
  obtain ⟨_, h⟩ := not_or.mp h
  obtain ⟨hover, h⟩ := not_or.mp h
  obtain ⟨hadjacent, hbase⟩ := not_or.mp h
  push Not at hover hadjacent hbase
  obtain ⟨base, hp, hle⟩ := hbase
  refine ⟨0, (e.time + Duration.fromMillis 1 - base.time).toNat + 1, ?_,
    Nat.pos_iff_ne_zero.mpr hover, hadjacent, ?_⟩
  · intro hs
    have hnear := hs.2.2
    rw [EventQueue.baseNear, hp, Option.any_some, decide_eq_false_iff_not] at hnear
    lia
  · rw [EventQueue.baseNear, hp, Option.any_some, decide_eq_false_iff_not]
    lia

/-- What congestion decides for a packet is independent of the other side exactly for the
client's packets and where the delay of the base events makes no difference. -/
theorem congestion_own_side {w : Sim R G} {e : SimEvent} (he : e.event = .tunnelSent) :
    (∀ w', SameSender e.client w w' → ∀ delay, w'.Decides e delay ↔ w.Decides e delay) ↔
      w.OwnSide e := by
  constructor
  · intro hsame
    by_contra hno
    have hserver : e.client = false := by simpa using (not_or.mp hno).1
    obtain ⟨near, far, hnear, hfar⟩ := other_side_matters hno
    have hboth (d : Duration) (o : Option Duration) :
        (w.withClientDelay d).Decides e o ↔ w.Decides e o :=
      hsame _ (hserver ▸ w.withClientDelay_same d) o
    have hquiet : (w.withClientDelay near).Decides e none := by
      rw [decides_iff he, if_neg]
      exact fun hs => hnear ((w.withClientDelay_spreads e near near).mp hs)
    have hloud := (decides_iff he).mp ((hboth far none).mpr ((hboth near none).mp hquiet))
    change none = if (w.withClientDelay far).Spreads e far then _ else _ at hloud
    rw [if_pos ((w.withClientDelay_spreads e far far).mpr hfar)] at hloud
    exact absurd hloud (by simp)
  · intro hown w' hsame delay
    have hspreads : w'.Spreads e w'.network.clientAggregateBaseDelay ↔
        w.Spreads e w.network.clientAggregateBaseDelay := by
      rw [hsame.spreads]
      rcases hown with hclient | hany
      · have hdelay := hsame.delay
        rw [hclient] at hdelay
        exact iff_of_eq (congrArg (w.Spreads e) hdelay)
      · exact ⟨spreads_any hany, spreads_any hany⟩
    rw [decides_iff he, decides_iff he, if_congr hspreads (by rw [hsame.excess]) rfl]

/-- A packet of the server that is the second of its second, half a millisecond before a base
event, while the client's base events are late by this delay. -/
def secondPacket (delay : Duration) : Sim Unit Unit where
  sq := SimQueue.new.pushSim ⟨.normalSent, 500000, 0, false, false, false, false⟩
  client := View.sideUntil none
  server := View.sideUntil none
  network := {
    clientAggregateBaseDelay := delay, serverAggregateBaseDelay := 0, aggregateDelayQueue := .new
    network := ⟨10000000, some 1⟩, clientWindow := .new 1000000000
    serverWindow := ⟨1000000000, [0]⟩, ppsAddedDelay := 1000000000, ppsLimit := 1, pushes := [] }
  currentTime := 0
  rng := ()
  trace := []
  simIterations := 0
  log := []

def serverPacket : SimEvent := ⟨.tunnelSent, 0, 0, false, false, false, false⟩

/-- One more millisecond at the client makes the server's packet delay the base events. -/
theorem client_delay_decides : serverPacket.event = .tunnelSent ∧
    SameSender serverPacket.client (secondPacket 0) (secondPacket 1000000) ∧
    (secondPacket 0).Decides serverPacket none ∧
    (secondPacket 1000000).Decides serverPacket (some 1000000000) ∧
    ¬ (secondPacket 1000000).Decides serverPacket none := by
  refine ⟨rfl, ⟨rfl, rfl, rfl, rfl, rfl, rfl⟩, (decides_iff rfl).mpr (by decide +kernel),
    (decides_iff rfl).mpr (by decide +kernel), fun h => ?_⟩
  exact absurd ((decides_iff rfl).mp h) (by decide +kernel)

/-- A packet of the client is decided by the client's side. -/
theorem client_packet_own_side :
    (∀ w', SameSender (heldPacket 0).client (heldFast [0]) w' → ∀ delay,
      w'.Decides (heldPacket 0) delay ↔ (heldFast [0]).Decides (heldPacket 0) delay) ↔
      (heldFast [0]).OwnSide (heldPacket 0) :=
  congestion_own_side rfl

end Congestion

end Sim

end Maybenot

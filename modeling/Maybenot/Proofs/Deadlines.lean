import Maybenot.Proofs.Sync
import Mathlib.Data.List.ReduceOption

namespace Maybenot
open Lib

namespace NetworkBottleneck

/-- What shifts the base events, or is going to. -/
def delays (n : NetworkBottleneck) :=
  (n.network, n.clientAggregateBaseDelay, n.serverAggregateBaseDelay, n.aggregateDelayQueue,
    n.pushes)

theorem delays_queue {n m : NetworkBottleneck} (h : n.delays = m.delays) :
    n.aggregateDelayQueue = m.aggregateDelayQueue := congrArg (·.2.2.2.1) h

theorem delays_network {n m : NetworkBottleneck} (h : n.delays = m.delays) :
    n.network = m.network := congrArg (·.1) h

theorem delays_pushes {n m : NetworkBottleneck} (h : n.delays = m.delays) :
    n.pushes = m.pushes := congrArg (·.2.2.2.2) h

theorem delays_base {n m : NetworkBottleneck} (h : n.delays = m.delays) (c : Bool) :
    n.aggregateBaseDelay c = m.aggregateBaseDelay c := by
  cases c with
  | true => exact congrArg (·.2.1) h
  | false => exact congrArg (·.2.2.1) h

theorem delays_push {n m : NetworkBottleneck} (h : n.delays = m.delays) (d : Duration)
    (t : Instant) (c : Bool) :
    (n.pushAggregateDelay d t c).delays = (m.pushAggregateDelay d t c).delays := by
  simp only [delays, Prod.mk.injEq] at h
  obtain ⟨hn, hc, hs, hq, hp⟩ := h
  cases c <;> simp only [delays, pushAggregateDelay, hn, hc, hs, hq, hp]

theorem delays_sample (n : NetworkBottleneck) (t : Instant) (c : Bool) :
    (n.sample t c).2.delays = n.delays := by
  cases c with
  | true =>
    simp only [sample, if_true]
    generalize n.ppsAddedDelay * _ = x
    generalize (n.clientWindow.add t).1 = count
    split <;> split <;> rfl
  | false =>
    simp only [sample, Bool.false_eq_true, if_false]
    split <;> split <;> rfl

end NetworkBottleneck

/-- What the network does with the delays of the base events in a step: at most one delay is
pushed, and none takes effect. -/
def Prolongs (n : NetworkBottleneck) (t : Instant) (c : Bool) (n' : NetworkBottleneck) : Prop :=
  n'.delays = n.delays ∨ ∃ d, n'.delays = (n.pushAggregateDelay d t c).delays

theorem Prolongs.push (n : NetworkBottleneck) (d : Duration) (t : Instant) (c : Bool) :
    Prolongs n t c (n.pushAggregateDelay d t c) := .inr ⟨d, rfl⟩

theorem Prolongs.of_same {n m n' : NetworkBottleneck} {t : Instant} {c : Bool}
    (hm : m.delays = n.delays) (h : Prolongs m t c n') : Prolongs n t c n' := by
  rcases h with h | ⟨d, h⟩
  · exact .inl (h.trans hm)
  · exact .inr ⟨d, h.trans (NetworkBottleneck.delays_push hm d t c)⟩

/-- A delay that is pushed takes effect once at the client and once at the server. -/
theorem pushAggregateDelay_items (n : NetworkBottleneck) (d : Duration) (t : Instant) (c : Bool) :
    ∃ client server : Duration, (n.pushAggregateDelay d t c).aggregateDelayQueue.items =
      ⟨t + server, d, false⟩ ::ₘ ⟨t + client, d, true⟩ ::ₘ n.aggregateDelayQueue.items := by
  cases c with
  | true => exact ⟨4 * n.network.sample - d, 3 * n.network.sample - d, by
      simp [NetworkBottleneck.pushAggregateDelay]⟩
  | false => exact ⟨n.network.sample - d, 4 * n.network.sample - d, by
      simp [NetworkBottleneck.pushAggregateDelay]⟩

theorem Prolongs.later {n n' : NetworkBottleneck} {t : Instant} {c : Bool}
    (h : Prolongs n t c n') :
    ∀ d ∈ n'.aggregateDelayQueue.items, d ∈ n.aggregateDelayQueue.items ∨ t ≤ d.time := by
  intro d hd
  rcases h with hq | ⟨x, hq⟩
  · exact .inl (NetworkBottleneck.delays_queue hq ▸ hd)
  · obtain ⟨client, server, hitems⟩ := pushAggregateDelay_items n x t c
    rw [NetworkBottleneck.delays_queue hq, hitems, Multiset.mem_cons, Multiset.mem_cons] at hd
    rcases hd with rfl | rfl | hd
    · exact .inr (by lia)
    · exact .inr (by lia)
    · exact .inl hd

theorem popAggregateDelay_items (n : NetworkBottleneck) :
    ∀ d ∈ n.popAggregateDelay.aggregateDelayQueue.items, d ∈ n.aggregateDelayQueue.items := by
  intro d hd
  cases hp : n.aggregateDelayQueue.peek with
  | none =>
    unfold NetworkBottleneck.popAggregateDelay at hd
    rw [show n.aggregateDelayQueue.pop = (none, n.aggregateDelayQueue.pop.2) from
      Prod.ext ((BinaryHeap.pop_fst _).trans hp) rfl] at hd
    exact hd
  | some x =>
    rw [BinaryHeap.items_pop hp]
    apply Multiset.mem_cons_of_mem
    unfold NetworkBottleneck.popAggregateDelay at hd
    rw [show n.aggregateDelayQueue.pop = (some x, n.aggregateDelayQueue.pop.2) from
      Prod.ext ((BinaryHeap.pop_fst _).trans hp) rfl] at hd
    dsimp only at hd
    split at hd <;> exact hd

/-- The wait for the earliest is one of the waits, and for nothing that is not past is the
wait shorter. -/
theorem peekEarliest_spec (times : List Instant) (cur : Instant) (earliest : Wait) :
    (peekEarliest times cur earliest = earliest ∨ ∃ t ∈ times, cur ≤ t ∧
        peekEarliest times cur earliest = (Instant.durationSince t cur : Duration)) ∧
      peekEarliest times cur earliest ≤ earliest ∧
      ∀ t ∈ times, cur ≤ t →
        peekEarliest times cur earliest ≤ (Instant.durationSince t cur : Duration) := by
  unfold peekEarliest
  induction times generalizing earliest with
  | nil => exact ⟨.inl rfl, le_rfl, by simp⟩
  | cons t ts ih =>
    rw [List.foldl_cons]
    by_cases ht : t ≥ cur ∧ (Instant.durationSince t cur : Wait) < earliest
    · rw [if_pos ht]
      obtain ⟨hfound, hle, hall⟩ := ih (Instant.durationSince t cur : Duration)
      refine ⟨?_, hle.trans ht.2.le, ?_⟩
      · rcases hfound with h | ⟨u, hu, hcur, h⟩
        · exact .inr ⟨t, List.mem_cons_self, ht.1, h⟩
        · exact .inr ⟨u, List.mem_cons_of_mem _ hu, hcur, h⟩
      · intro u hu hcur
        rcases List.mem_cons.mp hu with rfl | hu
        · exact hle
        · exact hall u hu hcur
    · rw [if_neg ht]
      obtain ⟨hfound, hle, hall⟩ := ih earliest
      refine ⟨?_, hle, ?_⟩
      · rcases hfound with h | ⟨u, hu, hcur, h⟩
        · exact .inl h
        · exact .inr ⟨u, List.mem_cons_of_mem _ hu, hcur, h⟩
      · intro u hu hcur
        rcases List.mem_cons.mp hu with rfl | hu
        · exact hle.trans (not_lt.mp fun hlt => ht ⟨hcur, hlt⟩)
        · exact hall u hu hcur

namespace Sim

variable {R G : Type}

/-- No deadline of the simulation is before a time. -/
structure Ahead (w : Sim R G) (t : Instant) : Prop where
  actions : ∀ c a, some a ∈ (w.side c).scheduledAction → t ≤ a.time
  timers : ∀ c u, some u ∈ (w.side c).scheduledInternalTimer → t ≤ u
  blocking : ∀ c u, (w.side c).blockingUntil = some u → t ≤ u
  delays : ∀ d ∈ w.network.aggregateDelayQueue.items, t ≤ d.time

theorem actionWait_le {w : Sim R G} {c : Bool} {a : ScheduledAction}
    (ha : some a ∈ (w.side c).scheduledAction) (hnow : w.currentTime ≤ a.time) :
    w.actionWait ≤ (Instant.durationSince a.time w.currentTime : Duration) := by
  unfold actionWait peekScheduledAction
  obtain ⟨_, hle, hall⟩ := peekEarliest_spec
    (w.server.scheduledAction.reduceOption.map (·.time)) w.currentTime
    (peekEarliest (w.client.scheduledAction.reduceOption.map (·.time)) w.currentTime ⊤)
  cases c with
  | false =>
    exact hall a.time (List.mem_map_of_mem (List.reduceOption_mem_iff.mpr ha)) hnow
  | true =>
    obtain ⟨_, _, hall⟩ := peekEarliest_spec
      (w.client.scheduledAction.reduceOption.map (·.time)) w.currentTime ⊤
    exact hle.trans (hall a.time (List.mem_map_of_mem (List.reduceOption_mem_iff.mpr ha)) hnow)

theorem timerWait_le {w : Sim R G} {c : Bool} {u : Instant}
    (hu : some u ∈ (w.side c).scheduledInternalTimer) (hnow : w.currentTime ≤ u) :
    w.timerWait ≤ (Instant.durationSince u w.currentTime : Duration) := by
  unfold timerWait peekScheduledInternalTimer
  obtain ⟨_, hle, hall⟩ := peekEarliest_spec w.server.scheduledInternalTimer.reduceOption
    w.currentTime (peekEarliest w.client.scheduledInternalTimer.reduceOption w.currentTime ⊤)
  cases c with
  | false => exact hall u (List.reduceOption_mem_iff.mpr hu) hnow
  | true =>
    obtain ⟨_, _, hall⟩ := peekEarliest_spec
      w.client.scheduledInternalTimer.reduceOption w.currentTime ⊤
    exact hle.trans (hall u (List.reduceOption_mem_iff.mpr hu) hnow)

theorem delayWait_le {w : Sim R G} {d : PendingAggregateDelay}
    (hd : d ∈ w.network.aggregateDelayQueue.items) :
    w.delayWait ≤ (Instant.durationSince d.time w.currentTime : Duration) := by
  unfold delayWait NetworkBottleneck.peekAggregateDelay
  cases hp : w.network.aggregateDelayQueue.peek with
  | none => exact absurd hd (by simp [BinaryHeap.peek_none.mp hp])
  | some x =>
    have hle : decide (x.time ≤ d.time) = true := BinaryHeap.peek_max hp d hd
    exact WithTop.coe_le_coe.mpr (View.durationSince_le (of_decide_eq_true hle))

/-- Nothing is due before a time that no wait is shorter than. -/
theorem Ahead.advance {w : Sim R G} (h : Ahead w w.currentTime) {d : Duration}
    (hs : d ≤ w.actionWait) (hi : d ≤ w.timerWait) (hb : d ≤ w.expiryWait.1)
    (hn : d ≤ w.delayWait) : Ahead w (w.currentTime + d) := by
  have hwait {x : Wait} {t : Instant} (hx : d ≤ x)
      (hle : x ≤ (Instant.durationSince t w.currentTime : Duration)) (ht : w.currentTime ≤ t) :
      w.currentTime + d ≤ t := by
    have hd := WithTop.coe_le_coe.mp (hx.trans hle)
    unfold Instant.durationSince at hd
    lia
  constructor
  · intro c a ha
    have hnow := h.actions c a ha
    exact hwait hs (actionWait_le ha hnow) hnow
  · intro c u hu
    have hnow := h.timers c u hu
    exact hwait hi (timerWait_le hu hnow) hnow
  · intro c u hu
    exact hwait hb (expiryWait_le hu) (h.blocking c u hu)
  · intro x hx
    exact hwait hn (delayWait_le hx) (h.delays x hx)

theorem expiryDelay_prolongs (w : Sim R G) (c : Bool) (t : Instant) :
    Prolongs w.network t c (w.expiryDelay c t) := by
  unfold expiryDelay
  split
  · exact .inl rfl
  · split
    · split
      · exact .push _ _ _ _
      · exact .inl rfl
    · exact .inl rfl

theorem Ahead.unblocked {w : Sim R G} {b : Duration} {c : Bool} {g : G} {t : Instant}
    (h : Ahead w t) (ht : t ≤ w.currentTime + b) : Ahead (w.unblocked b c g) t := by
  have hsame (c' : Bool) : ((w.unblocked b c g).side c').scheduledAction =
        (w.side c').scheduledAction ∧ ((w.unblocked b c g).side c').scheduledInternalTimer =
        (w.side c').scheduledInternalTimer ∧ (((w.unblocked b c g).side c').blockingUntil = none ∨
        ((w.unblocked b c g).side c').blockingUntil = (w.side c').blockingUntil) := by
    rw [unblocked_side]
    split
    · rename_i hc
      exact hc ▸ ⟨rfl, rfl, .inl rfl⟩
    · exact ⟨rfl, rfl, .inr rfl⟩
  constructor
  · intro c' a ha
    rw [(hsame c').1] at ha
    exact h.actions c' a ha
  · intro c' u hu
    rw [(hsame c').2.1] at hu
    exact h.timers c' u hu
  · intro c' u hu
    rcases (hsame c').2.2 with hn | hn
    · exact absurd (hn.symm.trans hu) (by simp)
    · exact h.blocking c' u (hn.symm.trans hu)
  · intro d hd
    rcases (expiryDelay_prolongs w c (w.currentTime + b)).later d hd with hd | hd
    · exact h.delays d hd
    · exact ht.trans hd

theorem Ahead.set {w w' : Sim R G} {c : Bool} {s : SimState R G} {t : Instant} (h : Ahead w t)
    (hside : ∀ c', w'.side c' = if c' = c then s else w.side c')
    (hn : w'.network = w.network)
    (ha : ∀ a, some a ∈ s.scheduledAction → some a ∈ (w.side c).scheduledAction ∨ t ≤ a.time)
    (hi : ∀ u, some u ∈ s.scheduledInternalTimer →
      some u ∈ (w.side c).scheduledInternalTimer ∨ t ≤ u)
    (hb : ∀ u, s.blockingUntil = some u → (w.side c).blockingUntil = some u ∨ t ≤ u) :
    Ahead w' t := by
  constructor
  · intro c' a hmem
    rw [hside] at hmem
    split at hmem
    · exact (ha a hmem).elim (h.actions c a) id
    · exact h.actions c' a hmem
  · intro c' u hmem
    rw [hside] at hmem
    split at hmem
    · exact (hi u hmem).elim (h.timers c u) id
    · exact h.timers c' u hmem
  · intro c' u hu
    rw [hside] at hu
    split at hu
    · exact (hb u hu).elim (h.blocking c u) id
    · exact h.blocking c' u hu
  · rw [hn]
    exact h.delays

theorem takeDue_side {α : Type} {time : α → Instant} {target : Instant}
    {f : SimState R G → List (Option α)} {w : Sim R G} {c : Bool} {i : Nat} {a : α}
    {ys : List (Option α)}
    (h : takeDue time target (f w.client) (f w.server) = some (c, i, a, ys)) :
    time a = target ∧ some a ∈ f (w.side c) ∧ ∀ b, some b ∈ ys → some b ∈ f (w.side c) := by
  have hdue := takeDue_some h
  cases c <;> exact hdue

theorem Ahead.pushSim {w : Sim R G} {t : Instant} (h : Ahead w t) (e : SimEvent) :
    Ahead (w.pushSim e) t :=
  ⟨h.actions, h.timers, h.blocking, h.delays⟩

/-- The time that a round of picking comes to: that of the event, if it found one. -/
def reached (cur : Instant) : Pick → Instant
  | .found (some e) => e.time
  | _ => cur

/-- A round of picking goes past no deadline, and neither does the event that it finds. -/
theorem Ahead.picks {w w' : Sim R G} {p : Pick} (hwf : w.sq.WellFormed)
    (h : Ahead w w.currentTime) (hp : Picks w p w') :
    w.currentTime ≤ reached w.currentTime p ∧ Ahead w' (reached w.currentTime p) := by
  cases hp with
  | nothing hq hs hi hb hn => exact ⟨le_rfl, h⟩
  | delayed hq hn hne =>
    exact ⟨le_rfl, h.actions, h.timers, h.blocking, fun d hd =>
      h.delays d (popAggregateDelay_items w.network d hd)⟩
  | @expiredLater _ _ _ c g b delay hq hb hle hn hd hpos =>
    exact ⟨le_rfl, Ahead.pushSim (h.unblocked (by lia)) _⟩
  | @expiredNow _ _ _ c g next b hq hb hle hn hd hnext =>
    subst hnext
    have hahead : Ahead w (w.currentTime + b) :=
      h.advance hle.1 hle.2.1 (by rw [hb]) hn.le
    have htime : reached w.currentTime (.found (some (blockingEnded c (w.currentTime + b) 0))) =
        w.currentTime + b := by
      change w.currentTime + (b : Int) + (0 : Nat) = w.currentTime + b
      lia
    rw [htime]
    have hnow : Ahead (w.unblocked b c g) (w.currentTime + b) := hahead.unblocked le_rfl
    exact ⟨by lia, hnow.actions, hnow.timers, hnow.blocking, hnow.delays⟩
  | queued hq hle hlt hhead hqueued hnext =>
    have htime := picked_time hwf hq hhead hqueued hnext
    have hahead := h.advance hle.1 hle.2 hlt.1.le hlt.2.le
    rw [← htime] at hahead
    refine ⟨?_, hahead.actions, hahead.timers, hahead.blocking, hahead.delays⟩
    rw [show reached w.currentTime (.found (some _)) = w.currentTime + _ from htime]
    lia
  | @timer _ _ _ c machine u timers i hq hi hle hlt hdue =>
    obtain ⟨_, _, hall⟩ := takeDue_side (f := (·.scheduledInternalTimer)) hdue
    refine ⟨le_rfl, Ahead.pushSim (h.set (s := { w.side c with scheduledInternalTimer := timers })
      (fun c' => side_of_setSide w c c' _) (setSide_network ..)
      (fun a ha => .inl ha) (fun u hu => .inl (hall u hu)) fun u hu => .inl hu) _⟩
  | @padding _ _ _ c _ a actions _ _ _ _ _ g s hq hs hlt hdue ha hd =>
    obtain ⟨_, _, hall⟩ := takeDue_side (f := (·.scheduledAction)) hdue
    have hnow : Ahead (w.actionFired c actions) w.currentTime :=
      h.set (s := { w.side c with scheduledAction := actions })
        (fun c' => side_of_setSide w c c' _)
        (setSide_network ..)
        (fun a ha => .inl (hall a ha)) (fun u hu => .inl hu) fun u hu => .inl hu
    exact ⟨le_rfl, hnow.actions, hnow.timers, hnow.blocking, hnow.delays⟩
  | @block _ _ _ c _ a actions _ duration bypass replace m _ _ _ _ x s hq hs hlt hdue ha hd hd' hx =>
    obtain ⟨htime, _, hall⟩ := takeDue_side (f := (·.scheduledAction)) hdue
    have hkept : x.scheduledAction = actions ∧
        x.scheduledInternalTimer = (w.side c).scheduledInternalTimer := by
      subst hx
      unfold SimState.block
      split <;> exact ⟨rfl, rfl⟩
    refine ⟨le_rfl, Ahead.pushSim (h.set (s := x) (fun c' => blockFired_side w c c' x _ _)
      (setSide_network ..) ?_ ?_ ?_) _⟩
    · intro b hb
      exact .inl (hall b (hkept.1 ▸ hb))
    · intro u hu
      exact .inl (hkept.2 ▸ hu)
    · intro u hu
      rw [hx, block_blockingUntil] at hu
      split at hu
      · obtain rfl := Option.some.inj hu
        change a.time = w.currentTime + s at htime
        exact .inr (by lia)
      · exact .inl hu

theorem sendPacket_prolongs (w : Sim R G) (e : SimEvent) :
    Prolongs w.network w.currentTime e.client (w.sendPacket e).network := by
  apply Prolongs.of_same (w.network.delays_sample w.currentTime e.client)
  unfold sendPacket
  dsimp only [Sim.pushSim]
  split
  · split
    · exact .push _ _ _ _
    · exact .inl rfl
  · exact .inl rfl

theorem replacePadding_prolongs {w w' : Sim R G} {e : SimEvent}
    (h : w.replacePadding e = .ok (some w')) :
    Prolongs w.network w.currentTime e.client w'.network := by
  unfold replacePadding at h
  dsimp only at h
  split at h
  · exact absurd (pure_ok.mp h) (by simp)
  · split at h
    · split at h
      · simp only [bind_ok] at h
        obtain ⟨⟨_, sq⟩, _, popped, _, h⟩ := h
        obtain rfl := Option.some.inj (pure_ok.mp h)
        dsimp only [Sim.note]
        split
        · exact .push _ _ _ _
        · exact .inl rfl
      · obtain rfl := Option.some.inj (pure_ok.mp h)
        exact .inl rfl
    · exact absurd (pure_ok.mp h) (by simp)

theorem simNetworkStack_prolongs {w w' : Sim R G} {e : SimEvent} {a : Bool}
    (h : w.simNetworkStack e = .ok (a, w')) :
    Prolongs w.network w.currentTime e.client w'.network := by
  unfold simNetworkStack at h
  split at h
  · obtain ⟨_, rfl⟩ := Prod.mk.inj (pure_ok.mp h)
    exact .inl rfl
  · split at h
    · obtain ⟨answer, ha, h⟩ := bind_ok.mp h
      cases answer with
      | none =>
        obtain ⟨_, rfl⟩ := Prod.mk.inj (pure_ok.mp h)
        exact .inl rfl
      | some w1 =>
        obtain ⟨_, rfl⟩ := Prod.mk.inj (pure_ok.mp h)
        exact replacePadding_prolongs ha
    · obtain ⟨_, rfl⟩ := Prod.mk.inj (pure_ok.mp h)
      exact .inl rfl
  · obtain ⟨_, rfl⟩ := Prod.mk.inj (pure_ok.mp h)
    exact sendPacket_prolongs w e
  · obtain ⟨_, rfl⟩ := Prod.mk.inj (pure_ok.mp h)
    exact .inl rfl
  · obtain ⟨_, rfl⟩ := Prod.mk.inj (pure_ok.mp h)
    exact .inl rfl

theorem iterate_prolongs [RngCore R] {args : SimulatorArgs G} {w w' : Sim R G} {e : SimEvent}
    {stop : Bool} (h : w.iterate args e = .ok (stop, w')) :
    Prolongs w.network e.time e.client w'.network := by
  unfold iterate at h
  split at h
  · exact absurd h (by simp)
  simp only [bind_ok] at h
  obtain ⟨⟨activity, w1⟩, hnet, w2, htrig, h⟩ := h
  have hstack := simNetworkStack_prolongs hnet
  obtain ⟨_, _, w3, _, _, _, _, hrest, hacted⟩ := triggerUpdate_ok htrig
  have hsame : w2.network = w1.network := congrArg (·.1) (hacted.rest.trans hrest)
  have hrecord : (w2.record args e activity).network = w2.network := by
    unfold record
    split <;> rfl
  have hw' : w'.network = (w2.record args e activity).network := by
    split at h
    · obtain ⟨_, rfl⟩ := Prod.mk.inj (pure_ok.mp h)
      rfl
    · split at h
      · obtain ⟨_, rfl⟩ := Prod.mk.inj (pure_ok.mp h)
        rfl
      · split at h
        · obtain ⟨_, rfl⟩ := Prod.mk.inj (pure_ok.mp h)
          rfl
        · obtain ⟨_, rfl⟩ := Prod.mk.inj (pure_ok.mp h)
          rfl
  rw [hw', hrecord, hsame]
  exact hstack

theorem Ahead.iterate [RngCore R] {args : SimulatorArgs G} {w w' : Sim R G} {e : SimEvent}
    {stop : Bool} (h : Ahead w e.time) (hit : w.iterate args e = .ok (stop, w')) :
    Ahead w' e.time := by
  obtain ⟨_, a, w1, w2, hs, ht, n, rfl⟩ := (iterate_ok hit).1
  obtain ⟨_, framework, w3, _, hown, hother, _, hrest, hacted⟩ := triggerUpdate_ok ht
  have hrecord := fun c => (w2.record_side args e a c).1
  have hside (c : Bool) : w1.side c = w.side c := by
    rw [sends_side hs c]
    cases c <;> rfl
  have htime : w3.currentTime = e.time := by
    have h1 : w3.currentTime = w1.currentTime := congrArg (·.2.1) hrest
    rw [h1]
    cases hs <;> rfl
  have hown' : w3.side e.client = { w.side e.client with framework := framework } := by
    rw [hown, hside]
  have hset : ∀ c, ((w2.record args e a).note (.processed e)).side c =
      if c = e.client then w2.side e.client else w.side c := by
    intro c
    apply (hrecord c).trans
    by_cases hc : c = e.client
    · rw [if_pos hc, hc]
    · have hc' : c = !e.client := Bool.eq_not_of_ne hc
      rw [if_neg hc, hc', hacted.other, hother, hside]
  have hahead : Ahead { (w2.record args e a).note (.processed e) with network := w.network }
      e.time := by
    refine h.set (s := w2.side e.client) hset rfl ?_ ?_ ?_
    · intro x hx
      rcases hacted.actions x hx with hx | hx
      · rw [hown'] at hx
        exact .inl hx
      · exact .inr (htime ▸ hx)
    · intro u hu
      rcases hacted.timers u hu with hu | hu
      · rw [hown'] at hu
        exact .inl hu
      · exact .inr (htime ▸ hu)
    · intro u hu
      rw [hacted.blockingUntil, hown'] at hu
      exact .inl hu
  refine ⟨hahead.actions, hahead.timers, hahead.blocking, ?_⟩
  intro d hd
  rcases (iterate_prolongs hit).later d hd with hd | hd
  · exact h.delays d hd
  · exact hd

end Sim

namespace Config
open Sim

variable {R G : Type}

/-- Where a run is after a round of picking. -/
def place (w : Sim R G) : Pick → Config R G
  | .again => .picking w
  | .found none => .done w
  | .found (some e) => .returned e w

@[simp] theorem place_sim (w : Sim R G) (p : Pick) : (place w p).sim = w := by
  rcases p with _ | ⟨_ | e⟩ <;> rfl

theorem place_now {w w' : Sim R G} {p : Pick} (h : w'.currentTime = w.currentTime) :
    (place w' p).now = reached w.currentTime p := by
  rcases p with _ | ⟨_ | e⟩
  · exact h
  · exact h
  · rfl

variable [RngCore R]

theorem next_picking {args : SimulatorArgs G} {w : Sim R G} {cfg : Config R G}
    (h : (Config.picking w).next args = .ok cfg) :
    ∃ p w', w.pickStep = .ok (p, w') ∧ cfg = place w' p := by
  simp only [next, bind_ok] at h
  obtain ⟨⟨p, w'⟩, hp, h⟩ := h
  refine ⟨p, w', hp, ?_⟩
  rcases p with _ | ⟨_ | e⟩ <;> exact (pure_ok.mp h).symm

theorem next_returned {args : SimulatorArgs G} {e : SimEvent} {w : Sim R G} {cfg : Config R G}
    (h : (Config.returned e w).next args = .ok cfg) :
    ∃ stop w', w.iterate args e = .ok (stop, w') ∧ cfg.sim = w' ∧
      (cfg = .picking w' ∨ cfg = .done w') := by
  simp only [next, bind_ok] at h
  obtain ⟨⟨stop, w'⟩, hit, h⟩ := h
  refine ⟨stop, w', hit, ?_⟩
  obtain rfl := pure_ok.mp h
  cases stop with
  | true => exact ⟨rfl, .inr rfl⟩
  | false => exact ⟨rfl, .inl rfl⟩

/-- In every place of a run no deadline is before the time that has come. -/
theorem run_ahead {args : SimulatorArgs G} {sq : SimQueue} (hwf : sq.WellFormed)
    {cfg : Config R G} (h : Reachable args sq cfg) :
    cfg.sim.currentTime ≤ cfg.now ∧ Ahead cfg.sim cfg.now := by
  refine h.invariant_of (P := fun cfg => cfg.sim.currentTime ≤ cfg.now ∧ Ahead cfg.sim cfg.now)
    ?_ ?_
  · rintro cfg ⟨_, _, _, _, _, w, hstart, rfl⟩
    obtain ⟨_, hclient, hserver, hnet, _⟩ := start_ok hstart
    have hside (c : Bool) : (w.side c).blockingUntil = none ∧ ∃ n m,
        (w.side c).scheduledAction = List.replicate n none ∧
        (w.side c).scheduledInternalTimer = List.replicate m none := by
      cases c with
      | false =>
        obtain ⟨_, hu, _, ha, hi⟩ := new_state hserver
        exact ⟨hu, _, _, ha, hi⟩
      | true =>
        obtain ⟨_, hu, _, ha, hi⟩ := new_state hclient
        exact ⟨hu, _, _, ha, hi⟩
    refine ⟨le_rfl, ?_, ?_, ?_, ?_⟩
    · intro c a ha
      obtain ⟨_, n, _, hn, _⟩ := hside c
      exact absurd (List.eq_of_mem_replicate (hn ▸ ha)) (by simp)
    · intro c u hu
      obtain ⟨_, _, m, _, hm⟩ := hside c
      exact absurd (List.eq_of_mem_replicate (hm ▸ hu)) (by simp)
    · intro c u hu
      exact absurd ((hside c).1.symm.trans hu) (by simp)
    · intro d hd
      have hempty := (NetworkBottleneck.new_ok hnet).2.1
      exact absurd (hempty ▸ hd) (Multiset.notMem_zero d)
  · rintro cfg cfg' hr ⟨hnow, hahead⟩ ⟨-, hnext⟩
    have hq : cfg.sim.sq.WellFormed := reachable_wellFormed hr hwf
    cases cfg with
    | picking w =>
      obtain ⟨p, w', hstep, rfl⟩ := next_picking hnext
      have hpicks := pickStep_ok hstep
      obtain ⟨hle, hw'⟩ := Ahead.picks hq hahead hpicks
      have htime := hpicks.kept.1
      rw [place_sim, place_now htime]
      exact ⟨htime.trans_le hle, hw'⟩
    | returned e w =>
      obtain ⟨stop, w', hit, _, hcfg⟩ := next_returned hnext
      have hw' := hahead.iterate hit
      have htime : w'.currentTime = e.time := (iterates_hears (iterate_ok hit).1 true).time
      rw [← htime] at hw'
      rcases hcfg with rfl | rfl <;> exact ⟨le_rfl, hw'⟩
    | done w => exact pure_ok.mp hnext ▸ ⟨hnow, hahead⟩

/-- Wherever the next event is picked, no scheduled action, no timer, no end of a blocking and
no pending delay of base events is past. -/
theorem no_deadline_skipped {args : SimulatorArgs G} {sq : SimQueue} (hsq : sq.Built)
    {w : Sim R G} (h : Reachable args sq (.picking w)) : Ahead w w.currentTime :=
  (run_ahead hsq.wellFormed h).2

/-- A client that blocks its only packet has not missed the end of the blocking. -/
theorem blocking_end_ahead : ∃ w : Sim Unit Unit,
    Reachable (.new ⟨10, none⟩ 0 true) oneSent (.picking w) ∧
    (w.side true).blockingUntil = some 5000 ∧ Ahead w w.currentTime := by
  have hrun : blockedAt 5 = some (true, true, some 5000, true) := by decide +kernel
  obtain ⟨w, w', hstart, hafter, _, _, hu, _⟩ := blockedAt_some hrun
  have hreach := after_reachable (.start ⟨[blocker 5], [], (), (), (), w, hstart, rfl⟩) hafter
  exact ⟨w', hreach, hu, no_deadline_skipped (.push _ (.new none)) hreach⟩

end Config

end Maybenot

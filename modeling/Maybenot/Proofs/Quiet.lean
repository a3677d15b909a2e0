import Maybenot.Proofs.Causal
import Maybenot.Proofs.Progress

namespace Maybenot
open Lib

variable {R G : Type}

/-- A side without machines and without an integration. -/
structure Quiet (s : SimState R G) : Prop where
  slots : s.framework.actions = []
  actions : s.scheduledAction = []
  timers : s.scheduledInternalTimer = []
  blocking : s.blockingUntil = none
  integration : s.integration = none

theorem Quiet.draws {s : SimState R G} (h : Quiet s) (delay : Integration G → G → Duration × G)
    (g : G) : s.drawDelay delay g = (0, g) := by
  unfold SimState.drawDelay
  rw [h.integration]

/-- A framework without machines asks for nothing. -/
theorem silent [RngCore R] {f f' : Framework R Instant Duration} {events : List TriggerEvent}
    {now : Instant} {actions : List (TriggerAction Duration)} (h : f.actions = [])
    (hcall : f.triggerEvents events now = .ok (actions, f')) :
    actions = [] ∧ f'.actions = [] := by
  obtain ⟨_, _, hlen⟩ := Framework.shape_eq (Framework.triggerEvents_shape hcall)
  rw [h] at hlen
  have hempty : f'.actions = [] := List.length_eq_zero_iff.mp hlen
  refine ⟨List.eq_nil_iff_forall_not_mem.mpr fun a ha => ?_, hempty⟩
  have hslot := Framework.returned_slot hcall ha
  rw [hempty] at hslot
  exact absurd hslot (by simp)

namespace Sim

/-- Without machines nothing is waited for but the queue. -/
theorem quiet_waits {w : Sim R G} (h : ∀ c, Quiet (w.side c))
    (hn : w.network.aggregateDelayQueue.items = 0) :
    w.actionWait = ⊤ ∧ w.timerWait = ⊤ ∧ w.expiryWait.1 = ⊤ ∧ w.delayWait = ⊤ := by
  have hclient : Quiet w.client := h true
  have hserver : Quiet w.server := h false
  refine ⟨?_, ?_, ?_, ?_⟩
  · unfold actionWait peekScheduledAction
    rw [hclient.actions, hserver.actions]
    rfl
  · unfold timerWait peekScheduledInternalTimer
    rw [hclient.timers, hserver.timers]
    rfl
  · unfold expiryWait peekBlockedExp
    rw [hclient.blocking, hserver.blocking]
  · unfold delayWait NetworkBottleneck.peekAggregateDelay
    rw [BinaryHeap.peek_none.mpr hn]

/-- Without machines an event changes no more than the framework. -/
theorem triggerUpdate_quiet [RngCore R] {w w' : Sim R G} {e : SimEvent}
    (h : Quiet (w.side e.client)) (ht : w.triggerUpdate e = .ok w') :
    ∃ framework, framework.actions = [] ∧
      w' = w.setSide e.client { w.side e.client with framework := framework } := by
  simp only [triggerUpdate, bind_ok] at ht
  obtain ⟨⟨actions, framework⟩, hcall, ht⟩ := ht
  obtain ⟨rfl, hslots⟩ := silent h.slots hcall
  refine ⟨framework, hslots, ?_⟩
  have hrng : ((w.side e.client).triggerDelay w.rng).2 = w.rng :=
    congrArg Prod.snd (h.draws (·.triggerDelay) w.rng)
  rw [List.foldlM_nil, pure_ok] at ht
  rw [← ht]
  dsimp only
  rw [hrng]
  cases e.client <;> rfl

/-- What is left of an iteration without machines. -/
theorem iterates_quiet [RngCore R] {args : SimulatorArgs G} {w w' : Sim R G} {e : SimEvent}
    (hquiet : ∀ c, Quiet (w.side c)) (h : Iterates args w e w') :
    ∃ a w1, Sends { w with currentTime := e.time } e a w1 ∧ w'.sq = w1.sq ∧
      w'.network = w1.network ∧ w'.currentTime = e.time ∧ ∀ c, Quiet (w'.side c) := by
  obtain ⟨_, a, w1, w2, hs, ht, n, rfl⟩ := h
  have hside (c : Bool) : w1.side c = w.side c := by
    rw [sends_side hs c]
    cases c <;> rfl
  have hown : Quiet (w1.side e.client) := hside e.client ▸ hquiet e.client
  obtain ⟨framework, hslots, rfl⟩ := triggerUpdate_quiet hown ht
  let s : SimState R G := { w1.side e.client with framework := framework }
  have hrecord : ((w1.setSide e.client s).record args e a).sq = w1.sq ∧
      ((w1.setSide e.client s).record args e a).network = w1.network ∧
      ((w1.setSide e.client s).record args e a).currentTime = w1.currentTime := by
    unfold record
    split <;> cases e.client <;> exact ⟨rfl, rfl, rfl⟩
  refine ⟨a, w1, hs, hrecord.1, hrecord.2.1, hrecord.2.2.trans (by cases hs <;> rfl), ?_⟩
  intro c
  have hc : (((w1.setSide e.client s).record args e a).note (.processed e)).side c =
      (w1.setSide e.client s).side c := (record_side _ args e a c).1
  change Quiet ((((w1.setSide e.client s).record args e a).note (.processed e)).side c)
  rw [hc]
  by_cases hclient : c = e.client
  · rw [hclient, side_setSide]
    exact ⟨hslots, hown.actions, hown.timers, hown.blocking, hown.integration⟩
  · rw [Bool.eq_not_of_ne hclient, side_setSide_not, hside]
    exact hquiet _

/-- Without machines nothing is held back. -/
theorem quiet_held {w : Sim R G} (h : ∀ c, Quiet (w.side c)) (c : Bool) (e : SimEvent) :
    ¬ w.view.Held c e := by
  rintro ⟨_, hblocked, _⟩
  rw [view_side, (h c).blocking] at hblocked
  exact absurd hblocked (by simp)

theorem quiet_moved {w : Sim R G} (hbase : ∀ c, w.network.aggregateBaseDelay c = 0) (k : Queue)
    (c : Bool) (e : SimEvent) : e.moved k (w.network.aggregateBaseDelay c) = e := by
  rw [hbase]
  unfold SimEvent.moved
  split
  · simp
  · rfl

/-- Without machines an event waits for its own time. -/
theorem quiet_wait {w : Sim R G} (h : ∀ c, Quiet (w.side c))
    (hbase : ∀ c, w.network.aggregateBaseDelay c = 0) (c : Bool) (k : Queue) (e : SimEvent) :
    w.view.wait c k e = Instant.durationSince e.time w.currentTime := by
  rw [wait_free (quiet_held h c e), quiet_moved hbase]

/-- Without machines the head that is found is the first event of all queues. -/
theorem quiet_first {w : Sim R G} {q : Duration} {k : Queue} {c : Bool} {e : SimEvent}
    (hwf : w.sq.WellFormed) (hquiet : ∀ c, Quiet (w.side c))
    (hbase : ∀ c, w.network.aggregateBaseDelay c = 0)
    (hlater : ∀ y ∈ w.sq.items, w.currentTime ≤ y.time)
    (hq : w.queueWait = .ok (↑q, k, c)) (hpeek : ((w.sq.side c).heap k).peek = some e) :
    ∀ y ∈ w.sq.items, e.time ≤ y.time := by
  have hhead : ¬ w.view.HeadHeld := by
    rintro ⟨e, _, _, _, he⟩
    exact quiet_held hquiet _ _ he
  have hspec := View.peekQueue_spec (v := w.view) hwf w.otherWait
  rw [← queueWait_eq] at hspec
  intro y hy
  have hnow := hlater y hy
  obtain ⟨c', j, hy⟩ := SimQueue.mem_items.mp hy
  rcases hspec with ⟨htop, _⟩ | ⟨c1, k1, x, hfound, hx, _, hall⟩
  · exact absurd (congrArg Prod.fst (Except.ok.inj (htop.symm.trans hq))) (by simp)
  · obtain ⟨_, hrest⟩ := Prod.mk.inj (Except.ok.inj (hfound.symm.trans hq))
    obtain ⟨rfl, rfl⟩ := Prod.mk.inj hrest
    obtain rfl := Option.some.inj (hx.symm.trans hpeek)
    have hwaits := hall c' j y hy fun h => absurd h hhead
    rw [quiet_wait hquiet hbase, quiet_wait hquiet hbase] at hwaits
    unfold Instant.durationSince at hwaits
    lia

/-- Without machines the queues are empty when nothing is found in them. -/
theorem quiet_empty {w : Sim R G} {k : Queue} {c : Bool} (hwf : w.sq.WellFormed)
    (hother : w.otherWait = ⊤) (hq : w.queueWait = .ok (⊤, k, c)) : w.sq.items = 0 := by
  have hspec := View.peekQueue_spec (v := w.view) hwf w.otherWait
  rw [← queueWait_eq] at hspec
  apply Multiset.eq_zero_of_forall_notMem
  intro y hy
  obtain ⟨c', k', hy⟩ := SimQueue.mem_items.mp hy
  rcases hspec with ⟨_, hlate⟩ | ⟨_, _, _, hfound, _⟩
  · exact absurd (hlate c' k' y hy) (by rw [hother]; exact not_top_lt)
  · exact absurd (congrArg Prod.fst (Except.ok.inj (hfound.symm.trans hq))) (by simp)

/-- Without machines the next event is the first one of the queue, as it is. -/
theorem picks_quiet {w w' : Sim R G} {p : Pick} (hwf : w.sq.WellFormed)
    (hquiet : ∀ c, Quiet (w.side c)) (hn : w.network.aggregateDelayQueue.items = 0)
    (hbase : ∀ c, w.network.aggregateBaseDelay c = 0)
    (hlater : ∀ y ∈ w.sq.items, w.currentTime ≤ y.time) (h : Picks w p w') :
    (p = .found none ∧ w' = w ∧ w.sq.items = 0) ∨
      ∃ e k c, p = .found (some e) ∧ w' = { w with sq := w.sq.popped k c }.note (.picked e e) ∧
        ((w.sq.side c).heap k).peek = some e ∧ ∀ y ∈ w.sq.items, e.time ≤ y.time := by
  obtain ⟨haction, htimer, hexpiry, hdelay⟩ := quiet_waits hquiet hn
  have hother : w.otherWait = ⊤ := by
    unfold otherWait
    rw [haction, htimer, hexpiry, hdelay]
    rfl
  cases h with
  | nothing hq => exact .inl ⟨rfl, rfl, quiet_empty hwf hother hq⟩
  | delayed hq hle hne => exact absurd hdelay hne
  | expiredLater hq hb => exact absurd (hexpiry.symm.trans (congrArg Prod.fst hb)) (by simp)
  | expiredNow hq hb => exact absurd (hexpiry.symm.trans (congrArg Prod.fst hb)) (by simp)
  | @queued k c e queued next q hq hle hlt hpeek hqueued hnext =>
    have hnow : w.currentTime ≤ e.time :=
      hlater e (SimQueue.items_popped hpeek ▸ Multiset.mem_cons_self e _)
    have htime := queueWait_head hwf hq hpeek
    rw [quiet_wait hquiet hbase] at htime
    have hqueue : queued = e := hqueued.trans (quiet_moved hbase k c e)
    have hsame : next = e := by
      rw [hnext, hqueue]
      unfold SimEvent.forward
      rw [if_neg]
      unfold Instant.durationSince at htime
      lia
    subst hsame
    refine .inr ⟨next, k, c, rfl, ?_, hpeek, quiet_first hwf hquiet hbase hlater hq hpeek⟩
    rw [hqueue]
  | timer hq hi => exact absurd (htimer.symm.trans hi) (by simp)
  | padding hq hs => exact absurd (haction.symm.trans hs) (by simp)
  | block hq hs => exact absurd (haction.symm.trans hs) (by simp)

end Sim

end Maybenot

import Mathlib.Order.WithBot
import Maybenot.Proofs.Queue

namespace Maybenot.Sim
open Lib

variable {R G : Type}

/-- The side after one of its timers has fired. -/
def timerFired (w : Sim R G) (c : Bool) (timers : List (Option Instant)) : Sim R G :=
  w.setSide c { w.side c with scheduledInternalTimer := timers }

/-- The side after one of its actions has fired. -/
def actionFired (w : Sim R G) (c : Bool) (actions : List (Option ScheduledAction)) : Sim R G :=
  w.setSide c { w.side c with scheduledAction := actions }

/-- The event that says when a blocking ended. -/
def blockingEnded (c : Bool) (timeOfExpiry : Instant) (delay : Duration) : SimEvent where
  client := c
  event := .blockingEnd
  time := timeOfExpiry + delay
  integrationDelay := delay
  bypass := false
  replace := false
  containsPadding := false

/-- The side after its blocking has expired. -/
def unblocked (w : Sim R G) (b : Duration) (c : Bool) (g : G) : Sim R G :=
  ({ w.setSide c { w.side c with blockingUntil := none } with
    rng := g, network := w.expiryDelay c (w.currentTime + b) }).note (.expired c (w.currentTime + b))

/-- The event that says when a blocking began. -/
def blockingBegun (c : Bool) (machine : MachineId) (time : Instant) (delay : Duration)
    (bypass : Bool) : SimEvent where
  event := .blockingBegin machine
  time := time + delay
  integrationDelay := delay
  client := c
  bypass := bypass
  replace := false
  containsPadding := false

/-- The side after a `BlockOutgoing` has fired. -/
def blockFired (w : Sim R G) (c : Bool) (s : SimState R G) (g : G) (step : SimStep) : Sim R G :=
  ({ w.setSide c s with rng := g }).note step

theorem expire_eq {w : Sim R G} {c : Bool} {delay : Duration} {g : G}
    (h : (w.side c).reportingDelay w.rng = (delay, g)) (b : Duration) :
    w.expire b c =
      if delay > 0 then
        (.again, (w.unblocked b c g).pushSim (blockingEnded c (w.currentTime + b) delay))
      else (.found (some (blockingEnded c (w.currentTime + b) delay)), (w.unblocked b c g).note
        (.picked (blockingEnded c (w.currentTime + b) delay)
          (blockingEnded c (w.currentTime + b) delay))) := by
  unfold expire
  simp only [h]
  rfl

/-- What a round of picking can do, and what has to wait longer then. -/
inductive Picks (w : Sim R G) : Pick → Sim R G → Prop
  | nothing (hq : w.queueWait = .ok (⊤, k, c))
      (hs : w.actionWait = ⊤) (hi : w.timerWait = ⊤) (hb : w.expiryWait.1 = ⊤)
      (hn : w.delayWait = ⊤) : Picks w (.found none) w
  | delayed (hq : w.queueWait = .ok (q, k, c))
      (hn : w.delayWait ≤ w.actionWait ∧ w.delayWait ≤ w.timerWait ∧
        w.delayWait ≤ w.expiryWait.1 ∧ w.delayWait ≤ q) (hne : w.delayWait ≠ ⊤) :
      Picks w .again { w with network := w.network.popAggregateDelay }
  | expiredLater {b delay : Duration} (hq : w.queueWait = .ok (q, k, c'))
      (hb : w.expiryWait = (↑b, c)) (hle : b ≤ w.actionWait ∧ b ≤ w.timerWait ∧ b ≤ q)
      (hn : b < w.delayWait) (hd : (w.side c).reportingDelay w.rng = (delay, g))
      (hpos : 0 < delay) :
      Picks w .again ((w.unblocked b c g).pushSim (blockingEnded c (w.currentTime + b) delay))
  | expiredNow {b : Duration} (hq : w.queueWait = .ok (q, k, c'))
      (hb : w.expiryWait = (↑b, c)) (hle : b ≤ w.actionWait ∧ b ≤ w.timerWait ∧ b ≤ q)
      (hn : b < w.delayWait) (hd : (w.side c).reportingDelay w.rng = (0, g))
      (hnext : next = blockingEnded c (w.currentTime + b) 0) :
      Picks w (.found (some next)) ((w.unblocked b c g).note (.picked next next))
  | queued {q : Duration} (hq : w.queueWait = .ok (↑q, k, c))
      (hle : q ≤ w.actionWait ∧ q ≤ w.timerWait) (hlt : q < w.expiryWait.1 ∧ q < w.delayWait)
      (hhead : ((w.sq.side c).heap k).peek = some e)
      (hqueued : queued = e.moved k (w.network.aggregateBaseDelay c))
      (hnext : next = queued.forward (w.currentTime + q)) :
      Picks w (.found (some next))
        (({ w with sq := w.sq.popped k c }).note (.picked queued next))
  | timer {i : Duration} (hq : w.queueWait = .ok (q, k, c')) (hi : w.timerWait = i)
      (hle : i ≤ w.actionWait) (hlt : i < q ∧ i < w.expiryWait.1 ∧ i < w.delayWait)
      (hdue : takeDue id (w.currentTime + i) w.client.scheduledInternalTimer
        w.server.scheduledInternalTimer = some (c, machine, t, timers)) :
      Picks w .again ((w.timerFired c timers).pushSim {
        client := c, event := .timerEnd machine, time := w.currentTime + i, integrationDelay := 0
        bypass := false, replace := false, containsPadding := false })
  | padding {s : Duration} (hq : w.queueWait = .ok (q, k, c')) (hs : w.actionWait = s)
      (hlt : s < w.timerWait ∧ s < q ∧ s < w.expiryWait.1 ∧ s < w.delayWait)
      (hdue : takeDue (·.time) (w.currentTime + s) w.client.scheduledAction
        w.server.scheduledAction = some (c, mi, a, actions))
      (ha : a.action = .sendPadding timeout bypass replace machine)
      (hd : (w.side c).actionDelay w.rng = (actionDelay, g)) :
      Picks w .again (({ w.actionFired c actions with rng := g }).pushSim {
        event := .paddingSent machine, time := a.time, integrationDelay := actionDelay
        client := c, bypass := bypass, replace := replace, containsPadding := true })
  | block {s : Duration} (hq : w.queueWait = .ok (q, k, c')) (hs : w.actionWait = s)
      (hlt : s < w.timerWait ∧ s < q ∧ s < w.expiryWait.1 ∧ s < w.delayWait)
      (hdue : takeDue (·.time) (w.currentTime + s) w.client.scheduledAction
        w.server.scheduledAction = some (c, mi, a, actions))
      (ha : a.action = .blockOutgoing timeout duration bypass replace machine)
      (hd : (w.side c).actionDelay w.rng = (actionDelay, g))
      (hd' : (w.side c).reportingDelay g = (reportingDelay, g'))
      (hx : x = { w.side c with scheduledAction := actions }.block a.time (a.time + duration)
        bypass replace) :
      Picks w .again ((w.blockFired c x g' (.blocked c a.time (a.time + duration) bypass
        replace)).pushSim (blockingBegun c machine a.time (actionDelay + reportingDelay)
          x.blockingBypassable))

theorem exists_wait {x : Wait} (h : x ≠ ⊤) : ∃ d : Duration, x = d ∧ x.untopD 0 = d := by
  obtain ⟨d, rfl⟩ := WithTop.ne_top_iff_exists.mp h
  exact ⟨d, rfl, rfl⟩

/-- Every round of picking is one of these. -/
theorem pickStep_ok {w w' : Sim R G} {p : Pick} (h : w.pickStep = .ok (p, w')) :
    Picks w p w' := by
  simp only [pickStep, bind_ok] at h
  obtain ⟨⟨q, k, c⟩, hq, h⟩ := h
  split at h
  · rename_i hall
    obtain ⟨rfl, rfl⟩ := Prod.mk.inj (pure_ok.mp h)
    obtain ⟨hs, hi, hb, hn, rfl⟩ := hall
    exact .nothing hq hs hi hb hn
  rename_i hall
  split at h
  · rename_i hn
    obtain ⟨rfl, rfl⟩ := Prod.mk.inj (pure_ok.mp h)
    refine .delayed hq hn fun htop => hall ?_
    simpa [htop] using hn
  rename_i hn
  split at h
  · rename_i hb
    have hlt : w.expiryWait.1 < w.delayWait :=
      lt_of_not_ge fun hle => hn ⟨hle.trans hb.1, hle.trans hb.2.1, hle, hle.trans hb.2.2⟩
    obtain ⟨b, hb', hb0⟩ := exists_wait hlt.ne_top
    rw [hb0] at h
    rw [hb'] at hb hlt
    obtain ⟨delay, g, hd⟩ : ∃ delay g,
        (w.side w.expiryWait.2).reportingDelay w.rng = (delay, g) := ⟨_, _, rfl⟩
    have h := pure_ok.mp h
    simp only [expire, hd] at h
    by_cases hpos : delay > 0
    · rw [if_pos hpos] at h
      obtain ⟨rfl, rfl⟩ := Prod.mk.inj h
      exact .expiredLater hq (Prod.ext hb' rfl) hb hlt hd hpos
    · rw [if_neg hpos] at h
      obtain ⟨rfl, rfl⟩ := Prod.mk.inj h
      obtain rfl := Nat.eq_zero_of_not_pos hpos
      exact .expiredNow hq (Prod.ext hb' rfl) hb hlt hd rfl
  rename_i hb
  split at h
  · rename_i hq'
    have hqb : q < w.expiryWait.1 :=
      lt_of_not_ge fun hle => hb ⟨hle.trans hq'.1, hle.trans hq'.2, hle⟩
    have hqn : q < w.delayWait :=
      lt_of_not_ge fun hle => hn ⟨hle.trans hq'.1, hle.trans hq'.2, hle.trans hqb.le, hle⟩
    obtain ⟨d, rfl, hd⟩ := exists_wait hqb.ne_top
    rw [hd] at h
    simp only [popQueue, bind_ok, unwrap_ok] at h
    obtain ⟨⟨_, sq⟩, hpop, queued, rfl, h⟩ := h
    obtain ⟨he, rfl⟩ := SimQueue.pop_ok hpop
    obtain ⟨e, hhead, hqueued⟩ := Option.map_eq_some_iff.mp he.symm
    obtain ⟨rfl, rfl⟩ := Prod.mk.inj (pure_ok.mp h)
    exact .queued hq hq' ⟨hqb, hqn⟩ hhead hqueued.symm rfl
  rename_i hq'
  split at h
  · rename_i hi
    have hiq : w.timerWait < q := lt_of_not_ge fun hle => hq' ⟨hle.trans hi, hle⟩
    have hib : w.timerWait < w.expiryWait.1 :=
      lt_of_not_ge fun hle => hb ⟨hle.trans hi, hle, hle.trans hiq.le⟩
    have hin : w.timerWait < w.delayWait :=
      lt_of_not_ge fun hle => hn ⟨hle.trans hi, hle, hle.trans hib.le, hle.trans hiq.le⟩
    obtain ⟨i, hi', hi0⟩ := exists_wait hiq.ne_top
    rw [hi0] at h
    rw [hi'] at hi hiq hib hin
    simp only [bind_ok, doInternalTimer] at h
    obtain ⟨⟨e, w1⟩, hfire, h⟩ := h
    split at hfire
    · exact absurd hfire (by simp)
    rename_i hdue
    obtain ⟨rfl, rfl⟩ := Prod.mk.inj (pure_ok.mp hfire)
    obtain ⟨rfl, rfl⟩ := Prod.mk.inj (pure_ok.mp h)
    exact .timer hq hi' hi ⟨hiq, hib, hin⟩ hdue
  · rename_i hi
    have hsi : w.actionWait < w.timerWait := lt_of_not_ge hi
    have hsq : w.actionWait < q := lt_of_not_ge fun hle => hq' ⟨hle, hle.trans hsi.le⟩
    have hsb : w.actionWait < w.expiryWait.1 :=
      lt_of_not_ge fun hle => hb ⟨hle, hle.trans hsi.le, hle.trans hsq.le⟩
    have hsn : w.actionWait < w.delayWait :=
      lt_of_not_ge fun hle => hn ⟨hle, hle.trans hsi.le, hle.trans hsb.le, hle.trans hsq.le⟩
    obtain ⟨s, hs', hs0⟩ := exists_wait hsi.ne_top
    rw [hs0] at h
    rw [hs'] at hsi hsq hsb hsn
    simp only [bind_ok, doScheduledAction] at h
    obtain ⟨⟨e, w1⟩, hfire, h⟩ := h
    obtain ⟨rfl, rfl⟩ := Prod.mk.inj (pure_ok.mp h)
    split at hfire
    · exact absurd hfire (by simp)
    rename_i hdue
    split at hfire
    · exact absurd hfire (by simp)
    · exact absurd hfire (by simp)
    · rename_i ha
      obtain ⟨rfl, rfl⟩ := Prod.mk.inj (pure_ok.mp hfire)
      exact .padding hq hs' ⟨hsi, hsq, hsb, hsn⟩ hdue ha rfl
    · rename_i ha
      obtain ⟨rfl, rfl⟩ := Prod.mk.inj (pure_ok.mp hfire)
      exact .block hq hs' ⟨hsi, hsq, hsb, hsn⟩ hdue ha rfl rfl rfl

end Maybenot.Sim

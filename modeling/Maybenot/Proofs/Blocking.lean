import Maybenot.Proofs.Clock
import Maybenot.Proofs.Total

namespace Maybenot
open Lib

/-- Whether a framework thinks that blocking is active after an event. -/
def TriggerEvent.activeAfter (e : TriggerEvent) (active : Bool) : Bool :=
  match e with
  | .blockingBegin _ => true
  | .blockingEnd => false
  | _ => active

/-- Only the events of blocking change whether blocking is active. -/
theorem Framework.call_blockingActive {R T D : Type} [RngCore R] [Time.Duration D]
    [Time.Instant T D] {f f' : Framework R T D} {e : TriggerEvent} {now : T}
    {actions : List (TriggerAction D)} (h : f.triggerEvents [e] now = .ok (actions, f')) :
    f'.blockingActive = e.activeAfter f.blockingActive := by
  obtain ⟨f1, h1, hd, _⟩ := triggerEvents_ok h
  have hfixed {g g' : Framework R T D} (hf : g'.fixed = g.fixed) :
      g'.blockingActive = g.blockingActive := congrArg (·.2.2.2.2.2.2.2.2.1) hf
  have hsignal : f'.blockingActive = f1.blockingActive := by
    refine deliverSignal_keeps (P := fun g => g.blockingActive = f1.blockingActive)
      (fun _ hg => hg) ?_ rfl hd
    intro g mi c g' hg hm
    exact (hfixed hm.frame.fixed).trans hg
  simp only [processEvents, List.foldlM_cons, List.foldlM_nil, bind_ok] at h1
  obtain ⟨f2, he, h1⟩ := h1
  obtain rfl := pure_ok.mp h1
  have hturns := hfixed (processEvent_fixed he)
  have hstart : (f.startCall now).blockingActive = f.blockingActive := rfl
  rw [hsignal, hturns, ← hstart]
  cases e with
  | blockingBegin _ =>
    simp only [recorded]
    split
    · assumption
    · rfl
  | blockingEnd =>
    simp only [recorded]
    split
    · rfl
    · rename_i hinactive
      exact Bool.eq_false_of_not_eq_true hinactive
  | _ => rfl

namespace SimEvent

def isBegin (e : SimEvent) : Bool :=
  match e.event with
  | .blockingBegin _ => true
  | _ => false

/-- The event tells of the beginning or the end of blocking. -/
def Signals (e : SimEvent) : Prop := e.isBegin = true ∨ e.event = .blockingEnd

end SimEvent

namespace Sim

variable {R G : Type}

theorem side_of_setSide (w : Sim R G) (c c' : Bool) (s : SimState R G) :
    (w.setSide c s).side c' = if c' = c then s else w.side c' := by
  cases c <;> cases c' <;> rfl

/-- The events that wait inside the framework's side. -/
def internal (w : Sim R G) (c : Bool) : Multiset SimEvent := (w.sq.side c).internal.items

theorem internal_pushSim {w : Sim R G} {e y : SimEvent} {c : Bool} :
    y ∈ (w.pushSim e).internal c ↔
      (y = e ∧ c = e.client ∧ Queue.internal = e.home) ∨ y ∈ w.internal c :=
  SimQueue.mem_pushSim (k := .internal)

theorem internal_popped {sq : SimQueue} {k : Queue} {c c' : Bool} {e y : SimEvent}
    (he : ((sq.side c).heap k).peek = some e) (hy : y ≠ e) :
    y ∈ ((sq.popped k c).side c').internal.items ↔ y ∈ (sq.side c').internal.items := by
  change y ∈ (((sq.popped k c).side c').heap .internal).items ↔
    y ∈ ((sq.side c').heap .internal).items
  rw [SimQueue.heap_popped]
  split
  · rename_i hhere
    obtain ⟨rfl, rfl⟩ := hhere
    rw [BinaryHeap.items_pop he, Multiset.mem_cons]
    exact ⟨.inr, fun h => h.resolve_left hy⟩
  · rfl

theorem sends_side {w w' : Sim R G} {e : SimEvent} {a : Bool} (h : Sends w e a w') (c : Bool) :
    w'.side c = w.side c := by
  cases h <;> cases c <;> rfl

/-- An iteration leaves the events of blocking alone. -/
theorem sends_signals {w w' : Sim R G} {e : SimEvent} {a : Bool} (h : Sends w e a w') {c : Bool}
    {y : SimEvent} (hy : y.Signals) : y ∈ w'.internal c ↔ y ∈ w.internal c := by
  have hpush {e' : SimEvent} (he : ¬ e'.Signals) {sq : SimQueue}
      (hsq : w'.sq = sq.pushSim e') :
      y ∈ w'.internal c ↔ y ∈ (sq.side c).internal.items := by
    unfold internal
    rw [hsq]
    refine (SimQueue.mem_pushSim (k := .internal)).trans ⟨?_, .inr⟩
    rintro (⟨rfl, _⟩ | hmem)
    · exact absurd hy he
    · exact hmem
  cases h with
  | normal he => exact hpush (by simp [SimEvent.Signals, SimEvent.isBegin, SimEvent.tunnelSent]) rfl
  | kept => exact Iff.rfl
  | @swapped _ queued k _ he hr hb hq hn =>
    have hev : queued.event = .tunnelSent := hq.2.2.1
    have hns (b r : Bool) : ¬ ({ queued with bypass := b, replace := r } : SimEvent).Signals := by
      simp [SimEvent.Signals, SimEvent.isBegin, hev]
    refine (hpush (hns true false) rfl).trans (internal_popped (peekBlocking_ok hq.1).1 ?_)
    rintro rfl
    exact hns _ _ hy
  | padded he => exact hpush (by simp [SimEvent.Signals, SimEvent.isBegin, SimEvent.tunnelSent]) rfl
  | sent he =>
    obtain ⟨t, d, hsq⟩ := w.sendPacket_sq e
    exact hpush (by simp [SimEvent.Signals, SimEvent.isBegin, arrival]) hsq
  | received he =>
    refine hpush ?_ rfl
    cases e.containsPadding <;> simp [SimEvent.Signals, SimEvent.isBegin]
  | apart => exact Iff.rfl

/-- What an iteration does to the blocking of a side: only its framework hears of it. -/
structure Hears (w : Sim R G) (e : SimEvent) (c : Bool) (w' : Sim R G) : Prop where
  blockingUntil : (w'.side c).blockingUntil = (w.side c).blockingUntil
  blockingBypassable : (w'.side c).blockingBypassable = (w.side c).blockingBypassable
  integration : (w'.side c).integration = (w.side c).integration
  active : (w'.side c).framework.blockingActive =
    if c = e.client then e.event.activeAfter (w.side c).framework.blockingActive
    else (w.side c).framework.blockingActive
  time : w'.currentTime = e.time
  signals : ∀ y : SimEvent, y.Signals → (y ∈ w'.internal c ↔ y ∈ w.internal c)

theorem record_side (w : Sim R G) (args : SimulatorArgs G) (e : SimEvent) (a : Bool) (c : Bool) :
    (w.record args e a).side c = w.side c ∧ (w.record args e a).sq = w.sq ∧
      (w.record args e a).currentTime = w.currentTime ∧ (w.record args e a).log = w.log := by
  unfold record
  split <;> cases c <;> exact ⟨rfl, rfl, rfl, rfl⟩

theorem iterates_hears [RngCore R] {args : SimulatorArgs G} {w w' : Sim R G} {e : SimEvent}
    (h : Iterates args w e w') (c : Bool) : Hears w e c w' := by
  obtain ⟨_, a, w1, w2, hs, ht, n, rfl⟩ := h
  obtain ⟨actions, framework, w3, hcall, hown, hother, hsq, hrest, hacted⟩ := triggerUpdate_ok ht
  obtain ⟨ms, hms⟩ := hacted.queue
  obtain ⟨hrecord, hrsq, hrtime, _⟩ := w2.record_side args e a c
  have hside : w1.side c = w.side c := by
    rw [sends_side hs c]
    cases c <;> rfl
  have htime : w2.currentTime = e.time := by
    have h1 : w2.currentTime = w1.currentTime := congrArg (·.2.1) (hacted.rest.trans hrest)
    rw [h1]
    cases hs <;> rfl
  have hsignals (y : SimEvent) (hy : y.Signals) : y ∈ w2.internal c ↔ y ∈ w.internal c := by
    refine Iff.trans ?_ (sends_signals hs hy)
    unfold internal
    rw [hms, hsq]
    refine (SimQueue.mem_foldl_pushSim (k := .internal)).trans ⟨?_, .inr⟩
    rintro (⟨hmem, _⟩ | hmem)
    · obtain ⟨m, _, rfl⟩ := List.mem_map.mp hmem
      exact absurd hy (by simp [SimEvent.Signals, SimEvent.isBegin, timerBegun])
    · exact hmem
  -- the side of the event is the one whose framework has changed
  by_cases hc : c = e.client
  · subst hc
    refine ⟨?_, ?_, ?_, ?_, hrtime.trans htime, ?_⟩
    · exact (congrArg _ hrecord).trans (hacted.blockingUntil.trans (by rw [hown, hside]))
    · exact (congrArg _ hrecord).trans (hacted.blockingBypassable.trans (by rw [hown, hside]))
    · exact (congrArg _ hrecord).trans (hacted.integration.trans (by rw [hown, hside]))
    · rw [if_pos rfl, ← hside, ← Framework.call_blockingActive hcall]
      refine (congrArg (fun s : SimState R G => s.framework.blockingActive) hrecord).trans ?_
      rw [hacted.framework, hown]
    · intro y hy
      exact (show y ∈ ((w2.record args e a).sq.side e.client).internal.items ↔ _ by
        rw [hrsq]; exact hsignals y hy)
  · have hc' : c = !e.client := Bool.eq_not_of_ne hc
    have h2 : ((w2.record args e a).side c) = w.side c := by
      rw [hrecord, ← hside, hc', hacted.other, hother]
    refine ⟨congrArg _ h2, congrArg _ h2, congrArg _ h2, ?_, hrtime.trans htime, ?_⟩
    · rw [if_neg hc]
      exact congrArg (fun s : SimState R G => s.framework.blockingActive) h2
    · intro y hy
      exact (show y ∈ ((w2.record args e a).sq.side c).internal.items ↔ _ by
        rw [hrsq]; exact hsignals y hy)

/-- A step leaves the blocking of a side and its framework alone. -/
structure SameBlocking (c : Bool) (w w' : Sim R G) : Prop where
  blockingUntil : (w'.side c).blockingUntil = (w.side c).blockingUntil
  blockingBypassable : (w'.side c).blockingBypassable = (w.side c).blockingBypassable
  integration : (w'.side c).integration = (w.side c).integration
  framework : (w'.side c).framework = (w.side c).framework

theorem SameBlocking.of_side {c : Bool} {w w' : Sim R G} (h : w'.side c = w.side c) :
    SameBlocking c w w' := ⟨by rw [h], by rw [h], by rw [h], by rw [h]⟩

theorem SameBlocking.trans {c : Bool} {w w' w'' : Sim R G} (h : SameBlocking c w w')
    (h' : SameBlocking c w' w'') : SameBlocking c w w'' :=
  ⟨h'.blockingUntil.trans h.blockingUntil, h'.blockingBypassable.trans h.blockingBypassable,
    h'.integration.trans h.integration, h'.framework.trans h.framework⟩

theorem SameBlocking.other {w : Sim R G} {c c' : Bool} {s : SimState R G} (h : c' ≠ c)
    {w' : Sim R G} (hw : w'.side c' = (w.setSide c s).side c') : SameBlocking c' w w' := by
  rw [side_of_setSide, if_neg h] at hw
  exact .of_side hw

theorem SameBlocking.set {w : Sim R G} {c : Bool} {s : SimState R G}
    (hu : s.blockingUntil = (w.side c).blockingUntil)
    (hb : s.blockingBypassable = (w.side c).blockingBypassable)
    (hi : s.integration = (w.side c).integration) (hf : s.framework = (w.side c).framework)
    (c' : Bool) : SameBlocking c' w (w.setSide c s) := by
  by_cases h : c' = c
  · subst h
    have hs := side_setSide w c' s
    exact ⟨by rw [hs, hu], by rw [hs, hb], by rw [hs, hi], by rw [hs, hf]⟩
  · exact .other h rfl

theorem timerFired_blocking (w : Sim R G) (c : Bool) (timers : List (Option Instant))
    (c' : Bool) : SameBlocking c' w (w.timerFired c timers) :=
  .set (s := { w.side c with scheduledInternalTimer := timers }) rfl rfl rfl rfl c'

theorem actionFired_blocking (w : Sim R G) (c : Bool) (actions : List (Option ScheduledAction))
    (c' : Bool) : SameBlocking c' w (w.actionFired c actions) :=
  .set (s := { w.side c with scheduledAction := actions }) rfl rfl rfl rfl c'

/-- The blocking that is in force after a `BlockOutgoing`, if it is. -/
theorem block_blockingUntil (s : SimState R G) (time block : Instant) (bypass replace : Bool) :
    (s.block time block bypass replace).blockingUntil =
      if replace ∨ block > s.blockingUntil.getD time then some block else s.blockingUntil := by
  unfold SimState.block
  split <;> rfl

/-- A blocking that begins ends no other. -/
theorem block_isSome {s : SimState R G} (h : s.blockingUntil.isSome = true) {time block : Instant}
    {bypass replace : Bool} : (s.block time block bypass replace).blockingUntil.isSome = true := by
  rw [block_blockingUntil]
  split
  · rfl
  · exact h

theorem block_rest (s : SimState R G) (time block : Instant) (bypass replace : Bool) :
    (s.block time block bypass replace).integration = s.integration ∧
      (s.block time block bypass replace).framework = s.framework := by
  unfold SimState.block
  split <;> exact ⟨rfl, rfl⟩

theorem draw_none {s : SimState R G} (h : s.integration = none) (g : G) :
    s.reportingDelay g = (0, g) ∧ s.actionDelay g = (0, g) := by
  unfold SimState.reportingDelay SimState.actionDelay SimState.drawDelay
  rw [h]
  exact ⟨rfl, rfl⟩

theorem blockFired_side (w : Sim R G) (c c' : Bool) (s : SimState R G) (g : G) (step : SimStep) :
    (w.blockFired c s g step).side c' = if c' = c then s else w.side c' := by
  rw [← side_of_setSide]
  cases c' <;> rfl

theorem blockFired_rest (w : Sim R G) (c : Bool) (s : SimState R G) (g : G) (step : SimStep) :
    (w.blockFired c s g step).sq = w.sq ∧ (w.blockFired c s g step).currentTime = w.currentTime ∧
      (w.blockFired c s g step).log = w.log ++ [step] := by
  cases c <;> exact ⟨rfl, rfl, rfl⟩

theorem unblocked_side (w : Sim R G) (b : Duration) (c c' : Bool) (g : G) :
    (w.unblocked b c g).side c' =
      if c' = c then { w.side c with blockingUntil := none } else w.side c' := by
  rw [← side_of_setSide]
  cases c' <;> rfl

theorem unblocked_rest (w : Sim R G) (b : Duration) (c : Bool) (g : G) :
    (w.unblocked b c g).sq = w.sq ∧ (w.unblocked b c g).currentTime = w.currentTime ∧
      (w.unblocked b c g).log = w.log ++ [.expired c (w.currentTime + b)] := by
  cases c <;> exact ⟨rfl, rfl, rfl⟩

/-- What a framework is like at the start. -/
theorem new_state [RngCore R] {machines : List Machine} {now : Instant} {padding blocking : F64}
    {integration : Option (Integration G)} {rng : R} {s : SimState R G}
    (h : SimState.new machines now padding blocking integration rng = .ok s) :
    s.integration = integration ∧ s.blockingUntil = none ∧ s.framework.blockingActive = false ∧
      s.scheduledAction = List.replicate machines.length none ∧
      s.scheduledInternalTimer = List.replicate machines.length none := by
  simp only [SimState.new, bind_ok] at h
  obtain ⟨r, hr, h⟩ := h
  cases r with
  | error e => exact absurd h (by simp)
  | ok f =>
    obtain rfl := pure_ok.mp h
    obtain ⟨_, _, _, started, _, rfl⟩ := Framework.new_ok.mp hr
    exact ⟨rfl, rfl, rfl, rfl, rfl⟩

end Sim

end Maybenot

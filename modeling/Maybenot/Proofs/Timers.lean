import Mathlib.Data.Multiset.OrderedMonoid
import Maybenot.Proofs.Isolation
import Maybenot.Proofs.Progress

namespace Maybenot
open Lib

variable {R G : Type}

/-- The internal timer of a machine is set or cleared. -/
def TriggerAction.SetsTimer (machine : MachineId) : TriggerAction D → Prop
  | .cancel m timer => m = machine ∧ timer ≠ .action
  | .updateTimer _ _ m => m = machine
  | .sendPadding .. | .blockOutgoing .. => False

theorem TriggerAction.SetsTimer.for_machine {machine : MachineId} {a : TriggerAction D}
    (h : a.SetsTimer machine) : a.machine = machine := by
  cases a with
  | cancel m timer => exact h.1
  | sendPadding => exact h.elim
  | blockOutgoing => exact h.elim
  | updateTimer => exact h

/-- No machine gets two actions of one call. -/
theorem Framework.returned_once {T D : Type} [RngCore R] [Time.Duration D] [Time.Instant T D]
    {f f' : Framework R T D} {events : List TriggerEvent} {now : T}
    {actions : List (TriggerAction D)} {a : TriggerAction D}
    (h : f.triggerEvents events now = .ok (actions, f')) (ha : a ∈ actions) :
    ∃ before after, actions = before ++ a :: after ∧
      (∀ b ∈ before, b.machine ≠ a.machine) ∧ ∀ b ∈ after, b.machine ≠ a.machine := by
  have hslot := returned_slot h ha
  have hlabelled := call_labelled h
  have hsole := filter_machine (k := 0) (fun j b hb => by simpa using hlabelled j b hb) a.machine
  rw [Nat.zero_add, hslot] at hsole
  obtain ⟨_, _, _, hactions⟩ := triggerEvents_ok h
  rw [← hactions] at hsole
  obtain ⟨before, after, rfl⟩ := List.append_of_mem ha
  have hlength := congrArg List.length hsole
  rw [List.filter_append, List.filter_cons_of_pos (by simp)] at hlength
  simp only [List.length_append, List.length_cons, Option.join_some, Option.toList_some,
    List.length_nil] at hlength
  refine ⟨before, after, rfl, ?_, ?_⟩
  · intro b hb hm
    have hmem : b ∈ before.filter (·.machine = a.machine) := List.mem_filter.mpr ⟨hb, by simpa⟩
    have hpos := List.length_pos_of_mem hmem
    omega
  · intro b hb hm
    have hmem : b ∈ after.filter (·.machine = a.machine) := List.mem_filter.mpr ⟨hb, by simpa⟩
    have hpos := List.length_pos_of_mem hmem
    omega

/-- The events of a timer wait among the internal ones. -/
def TriggerEvent.OfTimer (event : TriggerEvent) : Prop :=
  ∃ machine, event = .timerBegin machine ∨ event = .timerEnd machine

theorem TriggerEvent.OfTimer.home {e : SimEvent} (h : e.event.OfTimer) : e.home = .internal := by
  obtain ⟨machine, h | h⟩ := h <;> (unfold SimEvent.home; rw [h])

namespace SimQueue

/-- The events of one kind that wait at a side. -/
def waiting (sq : SimQueue) (c : Bool) (event : TriggerEvent) : Multiset SimEvent :=
  (sq.side c).internal.items.filter (·.event = event)

/-- Pushing an event that belongs to a timer. -/
theorem waiting_own {e : SimEvent} (h : e.event.OfTimer) (sq : SimQueue) :
    (sq.pushSim e).waiting e.client e.event = e ::ₘ sq.waiting e.client e.event := by
  have hheap := sq.heap_pushSim e e.client .internal
  rw [if_pos ⟨rfl, h.home.symm⟩] at hheap
  change ((sq.pushSim e).side e.client).internal = _ at hheap
  unfold waiting
  rw [hheap, BinaryHeap.items_push]
  exact Multiset.filter_cons_of_pos (p := fun y : SimEvent => y.event = e.event) _ rfl

/-- Pushing any other event. -/
theorem waiting_other {sq : SimQueue} {e : SimEvent} {c : Bool} {event : TriggerEvent}
    (h : e.event = event → e.client ≠ c) :
    (sq.pushSim e).waiting c event = sq.waiting c event := by
  have hheap := sq.heap_pushSim e c .internal
  change ((sq.pushSim e).side c).internal = _ at hheap
  unfold waiting
  rw [hheap]
  split
  · rename_i hhere
    rw [BinaryHeap.items_push]
    exact Multiset.filter_cons_of_neg (p := fun y : SimEvent => y.event = event) _
      fun he => h he hhere.1.symm
  · rfl

/-- Popping brings no event. -/
theorem waiting_popped (sq : SimQueue) (k : Queue) (c c' : Bool) (event : TriggerEvent) :
    (sq.popped k c).waiting c' event ≤ sq.waiting c' event :=
  Multiset.filter_le_filter _ (sq.items_popped_le k .internal c c')

/-- Popping blocked packets leaves the events of timers alone. -/
theorem waiting_popped_apart (sq : SimQueue) {k : Queue} (hk : k ≠ .internal) (c c' : Bool)
    (event : TriggerEvent) : (sq.popped k c).waiting c' event = sq.waiting c' event := by
  have hheap := (sq.heap_popped k .internal c c').trans (if_neg fun h => hk h.2.symm)
  change ((sq.popped k c).side c').internal = (sq.side c').internal at hheap
  unfold waiting
  rw [hheap]

end SimQueue

namespace Sim

section Take

theorem takeFirst_at {p : α → Bool} {xs ys : List (Option α)} {i : Nat} {a : α}
    (h : takeFirst p xs = some (i, a, ys)) : xs[i]? = some (some a) ∧ ys = xs.set i none := by
  induction xs generalizing i ys with
  | nil => exact absurd h (by simp [takeFirst])
  | cons x xs ih =>
    rcases takeFirst_cons h with ⟨rfl, rfl, _, rfl⟩ | ⟨j, zs, rfl, rfl, hrest⟩
    · exact ⟨rfl, rfl⟩
    · obtain ⟨hget, rfl⟩ := ih hrest
      exact ⟨hget, rfl⟩

/-- What is taken leaves its place empty. -/
theorem takeDue_at {time : α → Instant} {target : Instant} {f : SimState R G → List (Option α)}
    {w : Sim R G} {c : Bool} {i : Nat} {a : α} {ys : List (Option α)}
    (h : takeDue time target (f w.client) (f w.server) = some (c, i, a, ys)) :
    (f (w.side c))[i]? = some (some a) ∧ ys = (f (w.side c)).set i none := by
  unfold takeDue at h
  split at h
  · rename_i r hr
    obtain ⟨rfl, rfl⟩ := Prod.mk.inj (Option.some.inj h)
    exact takeFirst_at hr
  · obtain ⟨r, hr, heq⟩ := Option.map_eq_some_iff.mp h
    obtain ⟨rfl, rfl⟩ := Prod.mk.inj heq
    exact takeFirst_at hr

end Take

/-- When the internal timer of a machine ends, if it is set. -/
def timer (w : Sim R G) (c : Bool) (machine : MachineId) : Option Instant :=
  (w.side c).scheduledInternalTimer[machine]?.join

theorem timer_mem {w : Sim R G} {c : Bool} {machine : MachineId} {t : Instant}
    (h : w.timer c machine = some t) : some t ∈ (w.side c).scheduledInternalTimer :=
  List.mem_of_getElem? (Option.join_eq_some_iff.mp h)

theorem timer_congr {w w' : Sim R G} {c : Bool}
    (h : (w'.side c).scheduledInternalTimer = (w.side c).scheduledInternalTimer)
    (machine : MachineId) : w'.timer c machine = w.timer c machine := by
  unfold timer
  rw [h]

/-- The side of a machine with another end of its timer, and any scheduled actions. -/
def withTimer (w : Sim R G) (c : Bool) (actions : List (Option ScheduledAction)) (m : MachineId)
    (x : Option Instant) : Sim R G :=
  w.setSide c { w.side c with
    scheduledAction := actions
    scheduledInternalTimer := (w.side c).scheduledInternalTimer.set m x }

/-- Setting one timer leaves the others alone. -/
theorem withTimer_timer {w : Sim R G} {c : Bool} {m : MachineId}
    (hm : m < (w.side c).scheduledInternalTimer.length) (actions : List (Option ScheduledAction))
    (x : Option Instant) (c' : Bool) (machine : MachineId) :
    (w.withTimer c actions m x).timer c' machine =
      if c' = c ∧ machine = m then x else w.timer c' machine := by
  unfold timer withTimer
  rw [side_of_setSide]
  by_cases hc : c' = c
  · subst hc
    rw [if_pos rfl]
    dsimp only
    rw [List.getElem?_set]
    by_cases hmachine : machine = m
    · subst hmachine
      rw [if_pos rfl, if_pos hm, if_pos ⟨rfl, rfl⟩]
      rfl
    · rw [if_neg fun h => hmachine h.symm, if_neg fun h => hmachine h.2]
  · rw [if_neg hc, if_neg fun h => hc h.1]

/-- The event that the timer of a machine ended. -/
def timerEnded (c : Bool) (time : Instant) (machine : MachineId) : SimEvent where
  client := c
  event := .timerEnd machine
  time := time
  integrationDelay := 0
  bypass := false
  replace := false
  containsPadding := false

/-- What a machine's timer shows: its end, and the events that wait to say that it began and
ended. -/
def clock (w : Sim R G) (c : Bool) (machine : MachineId) :=
  (w.timer c machine, w.sq.waiting c (.timerBegin machine), w.sq.waiting c (.timerEnd machine))

theorem clock_eq {w w' : Sim R G} {c : Bool} {machine : MachineId}
    (ht : w'.timer c machine = w.timer c machine)
    (hq : ∀ event, event = .timerBegin machine ∨ event = .timerEnd machine →
      w'.sq.waiting c event = w.sq.waiting c event) :
    w'.clock c machine = w.clock c machine := by
  unfold clock
  rw [ht, hq _ (.inl rfl), hq _ (.inr rfl)]

/-- An event crosses the network, and the events of timers wait as before. -/
theorem sends_clock {w w' : Sim R G} {e : SimEvent} {a : Bool} (h : Sends w e a w') (c : Bool)
    (machine : MachineId) : w'.clock c machine = w.clock c machine := by
  refine clock_eq (timer_congr (congrArg _ (sends_side h c)) machine) fun event hevent => ?_
  have hof : event.OfTimer := ⟨machine, hevent⟩
  have hpush {sq : SimQueue} {e' : SimEvent} (hne : ¬ e'.event.OfTimer) :
      (sq.pushSim e').waiting c event = sq.waiting c event :=
    SimQueue.waiting_other fun he => absurd (he ▸ hof) hne
  have hother {event : TriggerEvent} (h : event = .tunnelSent ∨ event = .tunnelRecv ∨
      event = .paddingRecv ∨ event = .normalRecv) : ¬ event.OfTimer := by
    intro hof
    obtain ⟨m, hm⟩ := hof
    rcases h with rfl | rfl | rfl | rfl <;> simp at hm
  cases h with
  | normal he => exact hpush (hother (.inl rfl))
  | kept he hr hb hq => rfl
  | swapped he hr hb hq hn =>
    rename_i queued k bottleneck
    have hk : k ≠ .internal := by
      rcases (peekBlocking_ok hq.1).2 with rfl | ⟨_, rfl⟩ <;> simp
    have hne : ¬ queued.event.OfTimer := hother (.inl hq.2.2.1)
    let next : SimEvent := { queued with bypass := true, replace := false }
    have hpushed : ((w.sq.popped k e.client).pushSim next).waiting c event =
        (w.sq.popped k e.client).waiting c event := hpush hne
    exact hpushed.trans (w.sq.waiting_popped_apart hk _ _ _)
  | padded he hq => exact hpush (hother (.inl rfl))
  | sent he => exact hpush (hother (.inr (.inl rfl)))
  | received he =>
    refine hpush (hother ?_)
    change (if e.containsPadding then TriggerEvent.paddingRecv else .normalRecv) = _ ∨ _
    split <;> simp
  | apart he => rfl

/-- An action that sets another timer or none. -/
theorem applyAction_apart {w w' : Sim R G} {c c' : Bool} {delay : Duration}
    {a : TriggerAction Duration} {machine : MachineId} (h : applyAction c' delay w a = .ok w')
    (hno : c' = c → ¬ a.SetsTimer machine) : w'.clock c machine = w.clock c machine := by
  have hsame {actions : List (Option ScheduledAction)} :
      (w.setSide c' { w.side c' with scheduledAction := actions }).clock c machine =
        w.clock c machine := by
    refine clock_eq (timer_congr ?_ machine) fun _ _ => by rw [setSide_sq]
    rw [side_of_setSide]
    split
    · rename_i hc
      rw [hc]
    · rfl
  have hset {m : MachineId} {x : Option Instant} {actions : List (Option ScheduledAction)}
      (hm : m < (w.side c').scheduledInternalTimer.length) (hne : c' = c → m ≠ machine) :
      (w.withTimer c' actions m x).clock c machine = w.clock c machine :=
    clock_eq ((withTimer_timer hm actions x c machine).trans
      (if_neg fun h => hne h.1.symm h.2.symm)) fun _ _ => by rw [withTimer, setSide_sq]
  cases a with
  | cancel m timer =>
    cases timer with
    | action =>
      simp only [applyAction, bind_ok, setAt_ok, pure_ok] at h
      obtain ⟨_, ⟨_, rfl⟩, rfl⟩ := h
      exact hsame
    | internal =>
      simp only [applyAction, bind_ok, setAt_ok, pure_ok] at h
      obtain ⟨_, ⟨hm, rfl⟩, rfl⟩ := h
      exact hset hm fun hc hmachine => hno hc ⟨hmachine, by simp⟩
    | all =>
      simp only [applyAction, bind_ok, setAt_ok, pure_ok] at h
      obtain ⟨_, ⟨_, rfl⟩, _, ⟨hm, rfl⟩, rfl⟩ := h
      exact hset hm fun hc hmachine => hno hc ⟨hmachine, by simp⟩
  | sendPadding | blockOutgoing =>
    simp only [applyAction, bind_ok, setAt_ok, pure_ok] at h
    obtain ⟨_, ⟨_, rfl⟩, rfl⟩ := h
    exact hsame
  | updateTimer duration replace m =>
    simp only [applyAction, bind_ok] at h
    obtain ⟨current, _, h⟩ := h
    split at h
    · simp only [bind_ok, setAt_ok, pure_ok] at h
      obtain ⟨_, ⟨hm, rfl⟩, rfl⟩ := h
      have hne (hc : c' = c) : m ≠ machine := hno hc
      let w1 := w.withTimer c' (w.side c').scheduledAction m (some (w.currentTime + duration))
      change (w1.pushSim (timerBegun c' w.currentTime m)).clock c machine = _
      refine (clock_eq (timer_congr (by rw [pushSim_side]) machine) fun event hevent => ?_).trans
        (hset hm hne)
      refine SimQueue.waiting_other fun he hc => ?_
      rcases hevent with rfl | rfl
      · exact hne hc (TriggerEvent.timerBegin.inj he)
      · exact absurd he (by simp [timerBegun])
    · exact pure_ok.mp h ▸ rfl

/-- The action sets the timer and says so, or it does nothing at all. -/
theorem applyAction_update {w w' : Sim R G} {c : Bool} {delay duration : Duration}
    {replace : Bool} {m : MachineId}
    (h : applyAction c delay w (.updateTimer duration replace m) = .ok w') :
    w'.clock c m =
      if replace = true ∨ (w.timer c m).getD w.currentTime < w.currentTime + duration then
      (some (w.currentTime + duration),
        timerBegun c w.currentTime m ::ₘ w.sq.waiting c (.timerBegin m),
        w.sq.waiting c (.timerEnd m)) else w.clock c m := by
  simp only [applyAction, bind_ok, Framework.at?_ok] at h
  obtain ⟨current, hcurrent, h⟩ := h
  have htimer : w.timer c m = current := by
    unfold timer
    rw [hcurrent]
    rfl
  rw [htimer]
  split at h
  · rename_i hset
    rw [if_pos hset]
    simp only [bind_ok, setAt_ok, pure_ok] at h
    obtain ⟨_, ⟨hm, rfl⟩, rfl⟩ := h
    let w1 := w.withTimer c (w.side c).scheduledAction m (some (w.currentTime + duration))
    have hsq : w1.sq = w.sq := setSide_sq w c _
    have hends : w1.timer c m = some (w.currentTime + duration) :=
      (withTimer_timer hm _ _ c m).trans (if_pos ⟨rfl, rfl⟩)
    have hbegun : (w1.pushSim (timerBegun c w.currentTime m)).sq.waiting c (.timerBegin m) =
        timerBegun c w.currentTime m ::ₘ w1.sq.waiting c (.timerBegin m) :=
      SimQueue.waiting_own ⟨m, .inl rfl⟩ w1.sq
    have hended : (w1.pushSim (timerBegun c w.currentTime m)).sq.waiting c (.timerEnd m) =
        w1.sq.waiting c (.timerEnd m) :=
      SimQueue.waiting_other fun he => absurd he (by simp [timerBegun])
    change (w1.pushSim (timerBegun c w.currentTime m)).clock c m = _
    rw [clock, hbegun, hended, hsq, ← hends]
    exact congrArg (·, _, _) (timer_congr (by rw [pushSim_side]) m)
  · rename_i hkeep
    rw [if_neg hkeep, pure_ok.mp h]

/-- Actions that leave a timer alone, one after the other. -/
theorem foldlM_clock {actions : List (TriggerAction Duration)} {w w' : Sim R G} {c c' : Bool}
    {delay : Duration} {machine : MachineId}
    (h : actions.foldlM (applyAction c' delay) w = .ok w')
    (hno : c' = c → ∀ a ∈ actions, ¬ a.SetsTimer machine) :
    w'.clock c machine = w.clock c machine ∧ w'.currentTime = w.currentTime := by
  refine foldlM_keeps (P := fun v : Sim R G =>
    v.clock c machine = w.clock c machine ∧ v.currentTime = w.currentTime) ?_ ⟨rfl, rfl⟩ h
  intro v a ha v' hv hstep
  exact ⟨(applyAction_apart hstep fun hc => hno hc a ha).trans hv.1,
    (applyAction_ok hstep).time.trans hv.2⟩

variable [RngCore R]

/-- A call of the framework and the actions that it returns, one after the other. -/
theorem triggerUpdate_fold {w w' : Sim R G} {e : SimEvent} (h : w.triggerUpdate e = .ok w') :
    ∃ actions framework delay, ∃ w1 : Sim R G,
      (w.side e.client).framework.triggerEvents [e.event] w.currentTime =
        .ok (actions, framework) ∧ w1.currentTime = w.currentTime ∧
      (∀ c machine, w1.clock c machine = w.clock c machine) ∧
      actions.foldlM (applyAction e.client delay) w1 = .ok w' := by
  simp only [triggerUpdate, bind_ok] at h
  obtain ⟨⟨actions, framework⟩, hcall, h⟩ := h
  refine ⟨actions, framework, _, _, hcall, ?_, fun c machine => ?_, h⟩
  · cases e.client <;> rfl
  · cases e.client <;> cases c <;> rfl

/-- What the body of the main loop does to timers, all of it through the actions. -/
theorem iterate_fold {args : SimulatorArgs G} {w w' : Sim R G} {e : SimEvent} {stop : Bool}
    (h : w.iterate args e = .ok (stop, w')) :
    ∃ actions framework delay, ∃ w1 w2 : Sim R G,
      (w.side e.client).framework.triggerEvents [e.event] e.time =
        .ok (actions, framework) ∧ w1.currentTime = e.time ∧
      (∀ c machine, w1.clock c machine = w.clock c machine) ∧
      actions.foldlM (applyAction e.client delay) w1 = .ok w2 ∧
      ∀ c machine, w'.clock c machine = w2.clock c machine := by
  obtain ⟨_, a, w1, w2, hs, ht, n, rfl⟩ := (iterate_ok h).1
  obtain ⟨actions, framework, delay, w3, hcall, htime, hclock, hfold⟩ := triggerUpdate_fold ht
  have hside : w1.side e.client = w.side e.client := by
    rw [sends_side hs]
    cases e.client <;> rfl
  have hnow : w1.currentTime = e.time := by cases hs <;> rfl
  rw [hside, hnow] at hcall
  refine ⟨actions, framework, delay, w3, w2, hcall, htime.trans hnow, ?_, hfold, ?_⟩
  · intro c machine
    rw [hclock, sends_clock hs]
    cases c <;> rfl
  · intro c machine
    apply clock_eq (timer_congr (congrArg _ (w2.record_side args e a c).1) machine)
    intro event _
    exact congrArg (·.waiting c event) (w2.record_side args e a c).2.1

/-- An event whose actions leave a timer alone. -/
theorem iterate_apart {args : SimulatorArgs G} {w w' : Sim R G} {e : SimEvent} {stop : Bool}
    (h : w.iterate args e = .ok (stop, w')) {c : Bool} {machine : MachineId}
    (hno : e.client = c → ∀ actions framework,
      (w.side c).framework.triggerEvents [e.event] e.time = .ok (actions, framework) →
        ∀ a ∈ actions, ¬ a.SetsTimer machine) :
    w'.clock c machine = w.clock c machine := by
  obtain ⟨actions, framework, delay, w1, w2, hcall, _, hw1, hfold, hw'⟩ := iterate_fold h
  have hw2 := (foldlM_clock hfold fun hc => hno hc actions framework (hc ▸ hcall)).1
  exact (hw' c machine).trans (hw2.trans (hw1 c machine))

/-- An event on which a machine's timer is updated. -/
theorem iterate_update {args : SimulatorArgs G} {w w' : Sim R G} {e : SimEvent} {stop : Bool}
    (h : w.iterate args e = .ok (stop, w')) {actions : List (TriggerAction Duration)}
    {framework : Framework R Instant Duration}
    (hcall : (w.side e.client).framework.triggerEvents [e.event] e.time = .ok (actions, framework))
    {duration : Duration} {replace : Bool} {m : MachineId}
    (ha : .updateTimer duration replace m ∈ actions) :
    w'.clock e.client m =
      if replace = true ∨ (w.timer e.client m).getD e.time < e.time + duration then
        (some (e.time + duration),
          timerBegun e.client e.time m ::ₘ w.sq.waiting e.client (.timerBegin m),
          w.sq.waiting e.client (.timerEnd m)) else w.clock e.client m := by
  obtain ⟨_, _, delay, w1, w2, hcall', htime, hw1, hfold, hw'⟩ := iterate_fold h
  obtain ⟨rfl, rfl⟩ := Prod.mk.inj (Except.ok.inj (hcall.symm.trans hcall'))
  obtain ⟨before, after, rfl, hbefore, hafter⟩ := Framework.returned_once hcall ha
  rw [List.foldlM_append, bind_ok] at hfold
  obtain ⟨v, hv, hfold⟩ := hfold
  rw [List.foldlM_cons, bind_ok] at hfold
  obtain ⟨u, hu, hfold⟩ := hfold
  have hapart {a : TriggerAction Duration} (hne : a.machine ≠ m) : ¬ a.SetsTimer m :=
    fun hsets => hne hsets.for_machine
  obtain ⟨hclock, hnow⟩ := foldlM_clock (c := e.client) hv fun _ a ha => hapart (hbefore a ha)
  have hu := applyAction_update hu
  have hrest := (foldlM_clock (c := e.client) hfold fun _ a ha => hapart (hafter a ha)).1
  have hsame : v.clock e.client m = w.clock e.client m := hclock.trans (hw1 _ _)
  obtain ⟨hend, hbegun, hended⟩ := by simpa [clock] using hsame
  rw [hw', hrest, hu, hend, hbegun, hended, hsame, hnow, htime]

omit [RngCore R]

/-- A timer is left alone, with no more of its ends waiting, or it ends and its event is queued. -/
inductive TimerStep (w w' : Sim R G) (c : Bool) (machine : MachineId) : Prop
  | kept (htimer : w'.timer c machine = w.timer c machine)
      (hends : w'.sq.waiting c (.timerEnd machine) ≤ w.sq.waiting c (.timerEnd machine))
  | ended {t : Instant} (hset : w.timer c machine = some t) (hgone : w'.timer c machine = none)
      (hends : w'.sq.waiting c (.timerEnd machine) =
        timerEnded c t machine ::ₘ w.sq.waiting c (.timerEnd machine))

/-- What changes one side, but not its timers, and no queue. -/
theorem TimerStep.of_side {w w' : Sim R G} {c1 : Bool} {s : SimState R G}
    (hside : ∀ c, w'.side c = if c = c1 then s else w.side c)
    (hs : s.scheduledInternalTimer = (w.side c1).scheduledInternalTimer) (hsq : w'.sq = w.sq)
    (c : Bool) (machine : MachineId) : TimerStep w w' c machine := by
  apply TimerStep.kept
  · apply timer_congr
    rw [hside]
    split
    · rename_i hc
      rw [hs, hc]
    · rfl
  · rw [hsq]

/-- An event that does not say that a timer ended is queued after the step. -/
theorem TimerStep.pushSim {w w' : Sim R G} {c : Bool} {machine : MachineId}
    (h : TimerStep w w' c machine) {e : SimEvent} (he : ∀ m, e.event ≠ .timerEnd m) :
    TimerStep w (w'.pushSim e) c machine := by
  have htimer : (w'.pushSim e).timer c machine = w'.timer c machine :=
    timer_congr (by rw [pushSim_side]) machine
  have hother : (w'.pushSim e).sq.waiting c (.timerEnd machine) =
      w'.sq.waiting c (.timerEnd machine) := SimQueue.waiting_other fun h => absurd h (he machine)
  cases h with
  | kept hsame hends => exact .kept (htimer.trans hsame) (hother ▸ hends)
  | ended hset hgone hends => exact .ended hset (htimer.trans hgone) (hother.trans hends)

/-- A timer that is due ends, and the others are left alone. -/
theorem TimerStep.due {w : Sim R G} {c1 : Bool} {m : MachineId} {t : Instant}
    (hget : (w.side c1).scheduledInternalTimer[m]? = some (some t)) (c : Bool)
    (machine : MachineId) : TimerStep w
      ((w.withTimer c1 (w.side c1).scheduledAction m none).pushSim (timerEnded c1 t m))
      c machine := by
  have hm : m < (w.side c1).scheduledInternalTimer.length := (List.getElem?_eq_some_iff.mp hget).1
  have hv := withTimer_timer hm (w.side c1).scheduledAction none c machine
  have hsq : (w.withTimer c1 (w.side c1).scheduledAction m none).sq = w.sq := setSide_sq w c1 _
  have htimer : ((w.withTimer c1 (w.side c1).scheduledAction m none).pushSim
      (timerEnded c1 t m)).timer c machine =
        (w.withTimer c1 (w.side c1).scheduledAction m none).timer c machine :=
    timer_congr (by rw [pushSim_side]) machine
  by_cases hown : c = c1 ∧ machine = m
  · obtain ⟨rfl, rfl⟩ := hown
    rw [if_pos ⟨rfl, rfl⟩] at hv
    apply TimerStep.ended (Option.join_eq_some_iff.mpr hget) (htimer.trans hv)
    rw [← hsq]
    exact SimQueue.waiting_own (e := timerEnded c t machine) ⟨machine, .inr rfl⟩ _
  · rw [if_neg hown] at hv
    apply TimerStep.kept (htimer.trans hv)
    rw [← hsq]
    apply le_of_eq
    apply SimQueue.waiting_other
    intro he hc
    exact hown ⟨hc.symm, (TriggerEvent.timerEnd.inj he).symm⟩

/-- A round of picking leaves a timer alone, or the timer ends and its event is queued. -/
theorem picks_timer {w w' : Sim R G} {p : Pick} (h : Picks w p w') (c : Bool)
    (machine : MachineId) : TimerStep w w' c machine := by
  cases h with
  | nothing => exact .kept rfl (le_refl _)
  | delayed => exact .kept (by cases c <;> rfl) (le_refl _)
  | @expiredLater _ _ _ c1 g b delay =>
    let v := w.unblocked b c1 g
    have hv : TimerStep w v c machine :=
      .of_side (fun c => unblocked_side w b c1 c g) rfl (setSide_sq w c1 _) c machine
    exact hv.pushSim fun m => by simp [blockingEnded]
  | @expiredNow _ _ _ c1 g next b =>
    apply TimerStep.of_side
    · exact fun c => unblocked_side w b c1 c g
    · rfl
    · exact setSide_sq w c1 _
  | queued => exact .kept (by cases c <;> rfl) (SimQueue.waiting_popped _ _ _ _ _)
  | @timer _ _ _ c1 m u timers i hq hi hle hlt hdue =>
    obtain ⟨hget, htimers⟩ := takeDue_at (f := (·.scheduledInternalTimer)) hdue
    have htime : u = w.currentTime + i := (takeDue_side (f := (·.scheduledInternalTimer)) hdue).1
    subst htime htimers
    exact .due hget c machine
  | @padding _ _ _ c1 _ a actions _ _ _ _ _ g s hq hs hlt hdue ha hd =>
    let v := { w.actionFired c1 actions with rng := g }
    have hv : TimerStep w v c machine := by
      apply TimerStep.of_side
      · exact fun c => side_of_setSide w c1 c _
      · rfl
      · exact setSide_sq w c1 _
    exact hv.pushSim fun m => by simp
  | @block _ _ _ c1 _ a actions _ duration bypass replace m _ _ _ g x s hq hs hlt hdue ha hd hd' hx =>
    let step := SimStep.blocked c1 a.time (a.time + duration) bypass replace
    have htimers : x.scheduledInternalTimer = (w.side c1).scheduledInternalTimer := by
      subst hx
      unfold SimState.block
      split <;> rfl
    let v := w.blockFired c1 x g step
    have hv : TimerStep w v c machine :=
      .of_side (fun c => blockFired_side w c1 c x g step) htimers (setSide_sq w c1 _) c machine
    exact hv.pushSim fun m => by simp [blockingBegun]

end Sim

namespace Config
open Sim

variable [RngCore R]

/-- The next step has no action of the side's framework that sets the timer of a machine. -/
def Untouched (c : Bool) (machine : MachineId) : Config R G → Prop
  | .returned e w => e.client = c → ∀ actions framework,
      (w.side c).framework.triggerEvents [e.event] e.time = .ok (actions, framework) →
        ∀ a ∈ actions, ¬ a.SetsTimer machine
  | .picking _ | .done _ => True

/-- The runs from a place on that leave the timer of a machine alone, each with the events
that were queued on the way to say that it ended. -/
abbrev Ticks (args : SimulatorArgs G) (c : Bool) (machine : MachineId) (first : Config R G) :
    Config R G × Multiset SimEvent → Prop :=
  Reach (fun r => r = (first, 0)) fun r r' => r.1.Untouched c machine ∧
    r.1.next args = .ok r'.1 ∧ r'.2 = r.2 + (r'.1.sim.sq.waiting c (.timerEnd machine) -
      r.1.sim.sq.waiting c (.timerEnd machine))

/-- A step that leaves the timer alone, or on which it ends. -/
theorem next_timer {args : SimulatorArgs G} {cfg cfg' : Config R G} {c : Bool}
    {machine : MachineId} (hnext : cfg.next args = .ok cfg') (hno : cfg.Untouched c machine) :
    TimerStep cfg.sim cfg'.sim c machine := by
  cases cfg with
  | picking w =>
    obtain ⟨p, w', hstep, rfl⟩ := next_picking hnext
    rw [place_sim]
    exact picks_timer (pickStep_ok hstep) c machine
  | returned e w =>
    obtain ⟨_, w', hit, rfl, _⟩ := next_returned hnext
    have hclock := iterate_apart hit hno
    simp only [clock, Prod.mk.injEq] at hclock
    exact .kept hclock.1 (le_of_eq hclock.2.2)
  | done w => exact .kept (pure_ok.mp hnext ▸ rfl) (pure_ok.mp hnext ▸ le_refl _)

/-- A timer that is left alone is still ahead, or it has ended once. -/
theorem ticks_timer {args : SimulatorArgs G} {sq : SimQueue}
    {first : Config R G} (hfirst : Reachable args sq first) {c : Bool} {machine : MachineId}
    {t : Instant} (ht : first.sim.timer c machine = some t)
    {r : Config R G × Multiset SimEvent} (h : Ticks args c machine first r) :
    Reachable args sq r.1 ∧ (r.1.sim.timer c machine = some t ∧ r.2 = 0 ∨
      r.1.sim.timer c machine = none ∧ r.2 = {timerEnded c t machine}) := by
  refine h.invariant (P := fun r => Reachable args sq r.1 ∧
    (r.1.sim.timer c machine = some t ∧ r.2 = 0 ∨
      r.1.sim.timer c machine = none ∧ r.2 = {timerEnded c t machine})) ?_ ?_
  · intro r hr
    subst hr
    exact ⟨hfirst, .inl ⟨ht, rfl⟩⟩
  · intro r r' hr hstep
    obtain ⟨hreach, hr⟩ := hr
    obtain ⟨hno, hnext, hends⟩ := hstep
    refine ⟨.next hreach ⟨trivial, hnext⟩, ?_⟩
    rw [hends]
    cases next_timer hnext hno with
    | kept hsame hle =>
      rw [tsub_eq_zero_of_le hle, add_zero, hsame]
      exact hr
    | ended hu hnone hcons =>
      rcases hr with ⟨hset, hzero⟩ | ⟨hgone, _⟩
      · obtain rfl := Option.some.inj (hset.symm.trans hu)
        refine .inr ⟨hnone, ?_⟩
        rw [hcons, hzero, zero_add, ← Multiset.singleton_add, add_tsub_cancel_right]
      · exact absurd (hgone.symm.trans hu) (by simp)

/-- When a timer ends after an update. -/
def updatedTimer (time : Instant) (duration : Duration) (replace : Bool)
    (old : Option Instant) : Instant :=
  if replace then time + duration
  else old.elim (time + duration) fun t => max t (time + duration)

/-- An update of a timer is carried out: it ends when it should, its beginning is queued once,
and its end is queued once before the time passes it, unless it is set anew. -/
structure CarriedOut (args : SimulatorArgs G) (c : Bool) (machine : MachineId) (time : Instant)
    (duration : Duration) (replace : Bool) (w : Sim R G) (cfg : Config R G) : Prop where
  timer : cfg.sim.timer c machine =
    some (updatedTimer time duration replace (w.timer c machine))
  begun : cfg.sim.sq.waiting c (.timerBegin machine) =
    timerBegun c time machine ::ₘ w.sq.waiting c (.timerBegin machine)
  ended : ∀ r, Ticks args c machine cfg r →
    r.1.now ≤ updatedTimer time duration replace (w.timer c machine) ∧ r.2 = 0 ∨
      r.2 = {timerEnded c (updatedTimer time duration replace (w.timer c machine)) machine}

theorem updatedTimer_later {time : Instant} {duration : Duration} {replace : Bool}
    {old : Option Instant} (h : replace = true ∨ old.getD time < time + duration) :
    updatedTimer time duration replace old = time + duration := by
  unfold updatedTimer
  split
  · rfl
  · rename_i hno
    have hlater := h.resolve_left hno
    cases old with
    | none => rfl
    | some t => exact max_eq_right (le_of_lt hlater)

/-- An update of a timer that the framework asks for is carried out exactly if it replaces the
timer or the new end is later than the old one, or than now if no timer is set. -/
theorem update_carried_out {args : SimulatorArgs G} {sq : SimQueue} (hsq : sq.Built)
    {e : SimEvent} {w : Sim R G} (h : Reachable args sq (.returned e w))
    {actions : List (TriggerAction Duration)} {framework : Framework R Instant Duration}
    (hcall : (w.side e.client).framework.triggerEvents [e.event] e.time = .ok (actions, framework))
    {duration : Duration} {replace : Bool} {machine : MachineId}
    (ha : .updateTimer duration replace machine ∈ actions) {cfg : Config R G}
    (hnext : (Config.returned e w).next args = .ok cfg) :
    CarriedOut args e.client machine e.time duration replace w cfg ↔
      replace = true ∨ (w.timer e.client machine).getD e.time < e.time + duration := by
  obtain ⟨_, w', hit, rfl, _⟩ := next_returned hnext
  have hclock := iterate_update hit hcall ha
  have hreach : Reachable args sq cfg := .next h ⟨trivial, hnext⟩
  constructor
  · intro hout
    by_contra hno
    rw [if_neg hno] at hclock
    have hsame := congrArg (·.2.1) hclock
    exact absurd (hout.begun.symm.trans hsame) (ne_of_gt (Multiset.lt_cons_self _ _))
  · intro hlater
    rw [if_pos hlater] at hclock
    simp only [clock, Prod.mk.injEq] at hclock
    obtain ⟨htimer, hbegun, _⟩ := hclock
    have hend := updatedTimer_later hlater
    refine ⟨hend ▸ htimer, hbegun, ?_⟩
    intro r hr
    rw [hend]
    obtain ⟨hr', hcase⟩ := ticks_timer hreach htimer hr
    rcases hcase with ⟨hset, hzero⟩ | ⟨_, hone⟩
    · exact .inl ⟨(run_ahead hsq.wellFormed hr').2.timers _ _ (timer_mem hset), hzero⟩
    · exact .inr hone

/-- A machine that sets its timer for so many microseconds when a packet is sent. -/
def timerMachine (duration : Rat) : Machine :=
  let constant (x : Rat) : Dist := ⟨.uniform (Flt.ofRat x) (Flt.ofRat x), ⟨0⟩, ⟨0⟩⟩
  .free [
    .new fun
      | .normalSent => certain 1
      | _ => [],
    { State.new (fun _ => []) with action := some (.updateTimer false (constant duration) none) }]

/-- What the client's framework asks for when its only packet is sent, its timer before and
after that, and how many events say then that it began. -/
def updatedOnce (duration : Rat) :
    Option (List (TriggerAction Duration) × Option Instant × Option Instant × Nat) := do
  let args : SimulatorArgs Unit := .new ⟨10, none⟩ 0 true
  let w ← (Sim.start [timerMachine duration] [] oneSent args () () ()).toOption
  match ← ((Config.picking w).after args 1).toOption with
  | .returned e w' =>
    let (actions, _) ← ((w'.side e.client).framework.triggerEvents [e.event] e.time).toOption
    let cfg ← ((Config.returned e w').next args).toOption
    return (actions, w'.timer e.client 0, cfg.sim.timer e.client 0,
      (cfg.sim.sq.waiting e.client (.timerBegin 0)).card)
  | _ => none

theorem updatedOnce_some {duration : Rat} {actions : List (TriggerAction Duration)}
    {old new : Option Instant} {n : Nat} (h : updatedOnce duration = some (actions, old, new, n)) :
    ∃ e, ∃ w : Sim Unit Unit, ∃ framework cfg,
      Reachable (.new ⟨10, none⟩ 0 true) oneSent (.returned e w) ∧
      (w.side e.client).framework.triggerEvents [e.event] e.time = .ok (actions, framework) ∧
      (Config.returned e w).next (.new ⟨10, none⟩ 0 true) = .ok cfg ∧
      w.timer e.client 0 = old ∧ cfg.sim.timer e.client 0 = new ∧
      (cfg.sim.sq.waiting e.client (.timerBegin 0)).card = n := by
  unfold updatedOnce at h
  simp only [Option.bind_eq_bind, Option.bind_eq_some_iff, toOption_eq_some] at h
  obtain ⟨w, hstart, cfg, hafter, hcfg⟩ := h
  cases cfg with
  | returned e w' =>
    simp only [Option.bind_eq_some_iff, toOption_eq_some] at hcfg
    obtain ⟨⟨actions', framework⟩, hcall, cfg', hnext, hsome⟩ := hcfg
    obtain ⟨rfl, hold, hnew, hn⟩ := by simpa using hsome
    have hreach := after_reachable
      (.start ⟨[timerMachine duration], [], (), (), (), w, hstart, rfl⟩) hafter
    exact ⟨e, w', framework, cfg', hreach, hcall, hnext, hold, hnew, hn⟩
  | picking w' => exact absurd hcfg (by simp)
  | done w' => exact absurd hcfg (by simp)

/-- An update by no time sets no timer, and nothing says that it began. -/
theorem empty_update_ignored : ∃ e, ∃ w : Sim Unit Unit, ∃ framework cfg,
    Reachable (.new ⟨10, none⟩ 0 true) oneSent (.returned e w) ∧
    (w.side e.client).framework.triggerEvents [e.event] e.time =
      .ok ([.updateTimer 0 false 0], framework) ∧
    (Config.returned e w).next (.new ⟨10, none⟩ 0 true) = .ok cfg ∧
    cfg.sim.timer e.client 0 = none ∧ cfg.sim.sq.waiting e.client (.timerBegin 0) = 0 ∧
    ¬ CarriedOut (.new ⟨10, none⟩ 0 true) e.client 0 e.time 0 false w cfg := by
  have hrun : updatedOnce 0 = some ([.updateTimer 0 false 0], none, none, 0) := by decide +kernel
  obtain ⟨e, w, framework, cfg, hreach, hcall, hnext, _, hnone, hcard⟩ := updatedOnce_some hrun
  refine ⟨e, w, framework, cfg, hreach, hcall, hnext, hnone, Multiset.card_eq_zero.mp hcard, ?_⟩
  intro hout
  exact absurd (hout.timer.symm.trans hnone) (by simp)

/-- An update by five microseconds is carried out. -/
theorem short_update_carried_out : ∃ e, ∃ w : Sim Unit Unit, ∃ cfg,
    Reachable (.new ⟨10, none⟩ 0 true) oneSent (.returned e w) ∧
    (Config.returned e w).next (.new ⟨10, none⟩ 0 true) = .ok cfg ∧
    CarriedOut (.new ⟨10, none⟩ 0 true) e.client 0 e.time 5000 false w cfg := by
  have hrun : updatedOnce 5 = some ([.updateTimer 5000 false 0], none, some 5000, 1) := by
    decide +kernel
  obtain ⟨e, w, framework, cfg, hreach, hcall, hnext, hold, _⟩ := updatedOnce_some hrun
  refine ⟨e, w, cfg, hreach, hnext, ?_⟩
  apply (update_carried_out (.push _ (.new none)) hreach hcall List.mem_cons_self hnext).mpr
  rw [hold]
  exact .inr (by simp)

end Config

end Maybenot

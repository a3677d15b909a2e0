import Maybenot.Proofs.Sessions
import Maybenot.Proofs.Timers

namespace Maybenot
open Lib

variable {R G : Type}

/-- The scheduled action of a machine is set or cleared. -/
def TriggerAction.SetsAction (machine : MachineId) : TriggerAction D → Prop
  | .cancel m timer => m = machine ∧ timer ≠ .internal
  | .sendPadding _ _ _ m | .blockOutgoing _ _ _ _ m => m = machine
  | .updateTimer .. => False

instance (machine : MachineId) : (a : TriggerAction D) → Decidable (a.SetsAction machine)
  | .cancel .. => inferInstanceAs (Decidable (_ ∧ _))
  | .sendPadding .. => inferInstanceAs (Decidable (_ = _))
  | .blockOutgoing .. => inferInstanceAs (Decidable (_ = _))
  | .updateTimer .. => inferInstanceAs (Decidable False)

theorem TriggerAction.SetsAction.for_machine {machine : MachineId} {a : TriggerAction D}
    (h : a.SetsAction machine) : a.machine = machine := by
  cases a with
  | cancel m timer => exact h.1
  | sendPadding => exact h
  | blockOutgoing => exact h
  | updateTimer => exact h.elim

/-- What is scheduled by an action whose timeout begins at a time. -/
def TriggerAction.planned (a : TriggerAction Duration) (time : Instant) : Option ScheduledAction :=
  match a with
  | .sendPadding timeout .. | .blockOutgoing timeout .. => some ⟨a, time + timeout⟩
  | .cancel .. | .updateTimer .. => none

/-- The event says that an action of the machine was carried out. -/
def TriggerEvent.OfAction (machine : MachineId) (event : TriggerEvent) : Prop :=
  event = .paddingSent machine ∨ event = .blockingBegin machine

theorem TriggerEvent.OfAction.home {machine : MachineId} {e : SimEvent}
    (h : e.event.OfAction machine) : e.home = .internal := by
  rcases h with h | h <;> (unfold SimEvent.home; rw [h])

theorem TriggerEvent.OfAction.unique {machine m : MachineId} {event : TriggerEvent}
    (h : event.OfAction machine) (h' : event.OfAction m) : m = machine := by
  rcases h with rfl | rfl <;> rcases h' with h' | h' <;> simp_all

namespace SimQueue

/-- The events that wait to say that actions of a machine were carried out. -/
def carried (sq : SimQueue) (c : Bool) (machine : MachineId) : Multiset SimEvent :=
  sq.waiting c (.paddingSent machine) + sq.waiting c (.blockingBegin machine)

/-- Pushing an event among the internal ones. -/
theorem waiting_internal {e : SimEvent} (h : e.home = .internal) (sq : SimQueue) :
    (sq.pushSim e).waiting e.client e.event = e ::ₘ sq.waiting e.client e.event := by
  have hheap := sq.heap_pushSim e e.client .internal
  rw [if_pos ⟨rfl, h.symm⟩] at hheap
  change ((sq.pushSim e).side e.client).internal = _ at hheap
  unfold waiting
  rw [hheap, BinaryHeap.items_push]
  exact Multiset.filter_cons_of_pos (p := fun y : SimEvent => y.event = e.event) _ rfl

theorem carried_own {e : SimEvent} {machine : MachineId} (h : e.event.OfAction machine)
    (sq : SimQueue) :
    (sq.pushSim e).carried e.client machine = e ::ₘ sq.carried e.client machine := by
  have hown := waiting_internal h.home sq
  unfold carried
  rcases h with h | h
  · have hother : (sq.pushSim e).waiting e.client (.blockingBegin machine) =
        sq.waiting e.client (.blockingBegin machine) :=
      waiting_other fun he => absurd (h.symm.trans he) (by simp)
    rw [h] at hown
    rw [hown, hother, Multiset.cons_add]
  · have hother : (sq.pushSim e).waiting e.client (.paddingSent machine) =
        sq.waiting e.client (.paddingSent machine) :=
      waiting_other fun he => absurd (h.symm.trans he) (by simp)
    rw [h] at hown
    rw [hown, hother, Multiset.add_cons]

theorem carried_other {sq : SimQueue} {e : SimEvent} {c : Bool} {machine : MachineId}
    (h : e.event.OfAction machine → e.client ≠ c) :
    (sq.pushSim e).carried c machine = sq.carried c machine := by
  unfold carried
  rw [waiting_other fun he => h (.inl he), waiting_other fun he => h (.inr he)]

theorem carried_popped (sq : SimQueue) (k : Queue) (c c' : Bool) (machine : MachineId) :
    (sq.popped k c).carried c' machine ≤ sq.carried c' machine :=
  add_le_add (sq.waiting_popped k c c' _) (sq.waiting_popped k c c' _)

theorem carried_popped_apart (sq : SimQueue) {k : Queue} (hk : k ≠ .internal) (c c' : Bool)
    (machine : MachineId) : (sq.popped k c).carried c' machine = sq.carried c' machine := by
  unfold carried
  rw [sq.waiting_popped_apart hk, sq.waiting_popped_apart hk]

end SimQueue

namespace Sim

/-- The action that is scheduled for a machine, if there is one. -/
def scheduled (w : Sim R G) (c : Bool) (machine : MachineId) : Option ScheduledAction :=
  (w.side c).scheduledAction[machine]?.join

theorem scheduled_mem {w : Sim R G} {c : Bool} {machine : MachineId} {a : ScheduledAction}
    (h : w.scheduled c machine = some a) : some a ∈ (w.side c).scheduledAction :=
  List.mem_of_getElem? (Option.join_eq_some_iff.mp h)

theorem scheduled_congr {w w' : Sim R G} {c : Bool}
    (h : (w'.side c).scheduledAction = (w.side c).scheduledAction) (machine : MachineId) :
    w'.scheduled c machine = w.scheduled c machine := by
  unfold scheduled
  rw [h]

/-- The side of the machine with another scheduled action, and any timers. -/
def withAction (w : Sim R G) (c : Bool) (timers : List (Option Instant)) (m : MachineId)
    (x : Option ScheduledAction) : Sim R G :=
  w.setSide c { w.side c with
    scheduledAction := (w.side c).scheduledAction.set m x
    scheduledInternalTimer := timers }

/-- Scheduling for one machine leaves the others alone. -/
theorem withAction_scheduled {w : Sim R G} {c : Bool} {m : MachineId}
    (hm : m < (w.side c).scheduledAction.length) (timers : List (Option Instant))
    (x : Option ScheduledAction) (c' : Bool) (machine : MachineId) :
    (w.withAction c timers m x).scheduled c' machine =
      if c' = c ∧ machine = m then x else w.scheduled c' machine := by
  unfold scheduled withAction
  rw [side_of_setSide]
  by_cases hc : c' = c
  · subst hc
    rw [if_pos rfl]
    dsimp only
    rw [List.getElem?_set]
    by_cases hmachine : machine = m
    · subst hmachine
      rw [if_pos rfl, if_pos hm, if_pos ⟨rfl, rfl⟩]
      rfl
    · rw [if_neg fun h => hmachine h.symm, if_neg fun h => hmachine h.2]
  · rw [if_neg hc, if_neg fun h => hc h.1]

/-- What a machine's scheduled action shows: the action, and the events that wait to say that
one was carried out. -/
def plan (w : Sim R G) (c : Bool) (machine : MachineId) :=
  (w.scheduled c machine, w.sq.carried c machine)

/-- An event crosses the network, and the actions are as before. -/
theorem sends_plan {w w' : Sim R G} {e : SimEvent} {a : Bool} (h : Sends w e a w') (c : Bool)
    (machine : MachineId) : w'.plan c machine = w.plan c machine := by
  refine Prod.ext (scheduled_congr (congrArg _ (sends_side h c)) machine) ?_
  have hpush {sq : SimQueue} {e' : SimEvent} (hne : ¬ e'.event.OfAction machine) :
      (sq.pushSim e').carried c machine = sq.carried c machine :=
    SimQueue.carried_other fun he => absurd he hne
  have hother {event : TriggerEvent} (h : event = .tunnelSent ∨ event = .tunnelRecv ∨
      event = .paddingRecv ∨ event = .normalRecv) : ¬ event.OfAction machine := by
    rintro (hm | hm)
    · rcases h with rfl | rfl | rfl | rfl <;> simp at hm
    · rcases h with rfl | rfl | rfl | rfl <;> simp at hm
  cases h with
  | normal he => exact hpush (hother (.inl rfl))
  | kept he hr hb hq => rfl
  | swapped he hr hb hq hn =>
    rename_i queued k bottleneck
    have hk : k ≠ .internal := by
      rcases (peekBlocking_ok hq.1).2 with rfl | ⟨_, rfl⟩ <;> simp
    let next : SimEvent := { queued with bypass := true, replace := false }
    have hpushed : ((w.sq.popped k e.client).pushSim next).carried c machine =
        (w.sq.popped k e.client).carried c machine := hpush (hother (.inl hq.2.2.1))
    exact hpushed.trans (w.sq.carried_popped_apart hk _ _ _)
  | padded he hq => exact hpush (hother (.inl rfl))
  | sent he => exact hpush (hother (.inr (.inl rfl)))
  | received he =>
    refine hpush (hother ?_)
    change (if e.containsPadding then TriggerEvent.paddingRecv else .normalRecv) = _ ∨ _
    split <;> simp
  | apart he => rfl

/-- An action that is for another machine, or for a timer. -/
theorem applyAction_aside {w w' : Sim R G} {c c' : Bool} {delay : Duration}
    {a : TriggerAction Duration} {machine : MachineId} (h : applyAction c' delay w a = .ok w')
    (hno : c' = c → ¬ a.SetsAction machine) : w'.plan c machine = w.plan c machine := by
  have hsame {timers : List (Option Instant)} :
      (w.setSide c' { w.side c' with scheduledInternalTimer := timers }).plan c machine =
        w.plan c machine := by
    refine Prod.ext (scheduled_congr ?_ machine) (by rw [plan, setSide_sq]; rfl)
    rw [side_of_setSide]
    split
    · rename_i hc
      rw [hc]
    · rfl
  have hset {m : MachineId} {x : Option ScheduledAction} {timers : List (Option Instant)}
      (hm : m < (w.side c').scheduledAction.length) (hne : c' = c → m ≠ machine) :
      (w.withAction c' timers m x).plan c machine = w.plan c machine :=
    Prod.ext ((withAction_scheduled hm timers x c machine).trans
      (if_neg fun h => hne h.1.symm h.2.symm)) (by rw [plan, withAction, setSide_sq]; rfl)
  cases a with
  | cancel m timer =>
    cases timer with
    | action =>
      simp only [applyAction, bind_ok, setAt_ok, pure_ok] at h
      obtain ⟨_, ⟨hm, rfl⟩, rfl⟩ := h
      exact hset hm fun hc hmachine => hno hc ⟨hmachine, by simp⟩
    | internal =>
      simp only [applyAction, bind_ok, setAt_ok, pure_ok] at h
      obtain ⟨_, ⟨_, rfl⟩, rfl⟩ := h
      exact hsame
    | all =>
      simp only [applyAction, bind_ok, setAt_ok, pure_ok] at h
      obtain ⟨_, ⟨hm, rfl⟩, _, ⟨_, rfl⟩, rfl⟩ := h
      exact hset hm fun hc hmachine => hno hc ⟨hmachine, by simp⟩
  | sendPadding timeout bypass replace m | blockOutgoing timeout _ bypass replace m =>
    simp only [applyAction, bind_ok, setAt_ok, pure_ok] at h
    obtain ⟨_, ⟨hm, rfl⟩, rfl⟩ := h
    exact hset hm fun hc hmachine => hno hc hmachine
  | updateTimer duration replace m =>
    simp only [applyAction, bind_ok] at h
    obtain ⟨current, _, h⟩ := h
    split at h
    · simp only [bind_ok, setAt_ok, pure_ok] at h
      obtain ⟨_, ⟨_, rfl⟩, rfl⟩ := h
      let timers := (w.side c').scheduledInternalTimer.set m (some (w.currentTime + duration))
      let w1 := w.setSide c' { w.side c' with scheduledInternalTimer := timers }
      have hpushed : (w1.pushSim (timerBegun c' w.currentTime m)).plan c machine =
          w1.plan c machine :=
        Prod.ext (scheduled_congr (by rw [pushSim_side]) machine) <|
          SimQueue.carried_other fun he => by
            rcases he with he | he <;> exact absurd he (by simp [timerBegun])
      exact hpushed.trans hsame
    · exact pure_ok.mp h ▸ rfl

/-- A timed action is scheduled for its timeout and the delay from now, and a cancelled one is
not scheduled any more. -/
theorem applyAction_own {w w' : Sim R G} {c : Bool} {delay : Duration}
    {a : TriggerAction Duration} {machine : MachineId} (ha : a.SetsAction machine)
    (h : applyAction c delay w a = .ok w') :
    w'.plan c machine = (a.planned (w.currentTime + delay), w.sq.carried c machine) := by
  have hset {m : MachineId} {x : Option ScheduledAction} (timers : List (Option Instant))
      (hm : m < (w.side c).scheduledAction.length) :
      (w.withAction c timers m x).plan c m = (x, w.sq.carried c m) :=
    Prod.ext ((withAction_scheduled hm timers x c m).trans (if_pos ⟨rfl, rfl⟩))
      (by rw [plan, withAction, setSide_sq])
  cases a with
  | cancel m timer =>
    obtain ⟨rfl, htimer⟩ := ha
    cases timer with
    | action =>
      simp only [applyAction, bind_ok, setAt_ok, pure_ok] at h
      obtain ⟨_, ⟨hm, rfl⟩, rfl⟩ := h
      exact hset _ hm
    | internal => exact absurd rfl htimer
    | all =>
      simp only [applyAction, bind_ok, setAt_ok, pure_ok] at h
      obtain ⟨_, ⟨hm, rfl⟩, _, ⟨_, rfl⟩, rfl⟩ := h
      exact hset _ hm
  | updateTimer => exact ha.elim
  | sendPadding timeout bypass replace m | blockOutgoing timeout _ bypass replace m =>
    obtain rfl := ha
    simp only [applyAction, bind_ok, setAt_ok, pure_ok] at h
    obtain ⟨_, ⟨hm, rfl⟩, rfl⟩ := h
    have htime : w.currentTime + timeout + delay = w.currentTime + delay + timeout := by lia
    rw [htime]
    exact hset _ hm

/-- Actions for other machines, one after the other. -/
theorem foldlM_plan {actions : List (TriggerAction Duration)} {w w' : Sim R G} {c c' : Bool}
    {delay : Duration} {machine : MachineId}
    (h : actions.foldlM (applyAction c' delay) w = .ok w')
    (hno : c' = c → ∀ a ∈ actions, ¬ a.SetsAction machine) :
    w'.plan c machine = w.plan c machine ∧ w'.currentTime = w.currentTime := by
  refine foldlM_keeps (P := fun v : Sim R G =>
    v.plan c machine = w.plan c machine ∧ v.currentTime = w.currentTime) ?_ ⟨rfl, rfl⟩ h
  intro v a ha v' hv hstep
  exact ⟨(applyAction_aside hstep fun hc => hno hc a ha).trans hv.1,
    (applyAction_ok hstep).time.trans hv.2⟩

variable [RngCore R]

/-- What the body of the main loop does to scheduled actions, all of it through the actions of
the framework, each delayed by a draw of the side's integration. -/
theorem iterate_plans {args : SimulatorArgs G} {w w' : Sim R G} {e : SimEvent} {stop : Bool}
    (h : w.iterate args e = .ok (stop, w')) :
    ∃ actions framework g, ∃ w1 w2 : Sim R G,
      (w.side e.client).framework.triggerEvents [e.event] e.time =
        .ok (actions, framework) ∧ w1.currentTime = e.time ∧
      (∀ c machine, w1.plan c machine = w.plan c machine) ∧
      actions.foldlM (applyAction e.client ((w.side e.client).triggerDelay g).1) w1 = .ok w2 ∧
      ∀ c machine, w'.plan c machine = w2.plan c machine := by
  obtain ⟨_, a, w1, w2, hs, ht, n, rfl⟩ := (iterate_ok h).1
  simp only [triggerUpdate, bind_ok] at ht
  obtain ⟨⟨actions, framework⟩, hcall, hfold⟩ := ht
  have hside : w1.side e.client = w.side e.client := by
    rw [sends_side hs]
    cases e.client <;> rfl
  have hnow : w1.currentTime = e.time := by cases hs <;> rfl
  rw [hside, hnow] at hcall
  rw [hside] at hfold
  refine ⟨actions, framework, w1.rng, _, w2, hcall, ?_, ?_, hfold, ?_⟩
  · refine Eq.trans ?_ hnow
    cases e.client <;> rfl
  · intro c machine
    have hplan := sends_plan hs c machine
    refine Eq.trans ?_ (hplan.trans ?_)
    · rw [← hside]
      cases e.client <;> cases c <;> rfl
    · cases c <;> rfl
  · intro c machine
    exact Prod.ext (scheduled_congr (congrArg _ (w2.record_side args e a c).1) machine)
      (congrArg (·.carried c machine) (w2.record_side args e a c).2.1)

/-- An event whose actions are for other machines. -/
theorem iterate_aside {args : SimulatorArgs G} {w w' : Sim R G} {e : SimEvent} {stop : Bool}
    (h : w.iterate args e = .ok (stop, w')) {c : Bool} {machine : MachineId}
    (hno : e.client = c → ∀ actions framework,
      (w.side c).framework.triggerEvents [e.event] e.time = .ok (actions, framework) →
        ∀ a ∈ actions, ¬ a.SetsAction machine) :
    w'.plan c machine = w.plan c machine := by
  obtain ⟨actions, framework, _, w1, w2, hcall, _, hw1, hfold, hw'⟩ := iterate_plans h
  have hw2 := (foldlM_plan hfold fun hc => hno hc actions framework (hc ▸ hcall)).1
  exact (hw' c machine).trans (hw2.trans (hw1 c machine))

/-- An event on which an action of a machine is scheduled or cancelled. -/
theorem iterate_own {args : SimulatorArgs G} {w w' : Sim R G} {e : SimEvent} {stop : Bool}
    (h : w.iterate args e = .ok (stop, w')) {actions : List (TriggerAction Duration)}
    {framework : Framework R Instant Duration}
    (hcall : (w.side e.client).framework.triggerEvents [e.event] e.time = .ok (actions, framework))
    {a : TriggerAction Duration} {machine : MachineId} (hmem : a ∈ actions)
    (ha : a.SetsAction machine) :
    ∃ g, w'.plan e.client machine =
      (a.planned (e.time + ((w.side e.client).triggerDelay g).1),
        w.sq.carried e.client machine) := by
  obtain ⟨_, _, g, w1, w2, hcall', htime, hw1, hfold, hw'⟩ := iterate_plans h
  obtain ⟨rfl, rfl⟩ := Prod.mk.inj (Except.ok.inj (hcall.symm.trans hcall'))
  obtain ⟨before, after, rfl, hbefore, hafter⟩ := Framework.returned_once hcall hmem
  rw [List.foldlM_append, bind_ok] at hfold
  obtain ⟨v, hv, hfold⟩ := hfold
  rw [List.foldlM_cons, bind_ok] at hfold
  obtain ⟨u, hu, hfold⟩ := hfold
  have hmachine := ha.for_machine
  have hapart {b : TriggerAction Duration} (hne : b.machine ≠ a.machine) :
      ¬ b.SetsAction machine := fun hsets => hne (hsets.for_machine.trans hmachine.symm)
  obtain ⟨hplan, hnow⟩ := foldlM_plan (c := e.client) hv fun _ b hb => hapart (hbefore b hb)
  have hrest := (foldlM_plan (c := e.client) hfold fun _ b hb => hapart (hafter b hb)).1
  have hcarried : v.sq.carried e.client machine = w.sq.carried e.client machine :=
    (Prod.mk.inj (hplan.trans (hw1 _ _))).2
  refine ⟨g, ?_⟩
  rw [hw', hrest, applyAction_own ha hu, hcarried, hnow, htime]

omit [RngCore R]

/-- The event of an action that is carried out: padding is sent or a blocking begins, at the
action's time and with the delays that the side's integration draws. -/
inductive Fires (s : SimState R G) (c : Bool) (a : ScheduledAction) : SimEvent → Prop
  | padding (ha : a.action = .sendPadding timeout bypass replace machine) (g : G) :
      Fires s c a {
        event := .paddingSent machine, time := a.time, integrationDelay := (s.actionDelay g).1
        client := c, bypass := bypass, replace := replace, containsPadding := true }
  | block (ha : a.action = .blockOutgoing timeout duration bypass replace machine) (g g' : G)
      (bypassable : Bool) :
      Fires s c a (blockingBegun c machine a.time
        ((s.actionDelay g).1 + (s.reportingDelay g').1) bypassable)

theorem Fires.of_action {s : SimState R G} {c : Bool} {a : ScheduledAction} {e : SimEvent}
    (h : Fires s c a e) : e.event.OfAction a.action.machine ∧ e.client = c := by
  cases h with
  | padding ha g => exact ⟨.inl (by rw [ha]; rfl), rfl⟩
  | block ha g g' bypassable => exact ⟨.inr (by rw [ha]; rfl), rfl⟩

theorem Fires.congr {s s' : SimState R G} {c : Bool} {a : ScheduledAction} {e : SimEvent}
    (h : Fires s c a e) (hs : s'.integration = s.integration) : Fires s' c a e := by
  have hdraw (delay : Integration G → G → Duration × G) :
      s'.drawDelay delay = s.drawDelay delay := by
    unfold SimState.drawDelay
    rw [hs]
  cases h with
  | padding ha g =>
    have hfires := Fires.padding (s := s') (c := c) ha g
    rwa [SimState.actionDelay, hdraw] at hfires
  | block ha g g' bypassable =>
    have hfires := Fires.block (s := s') (c := c) ha g g' bypassable
    rwa [SimState.actionDelay, SimState.reportingDelay, hdraw, hdraw] at hfires

/-- Every machine has its own place among the scheduled actions. -/
def Placed (w : Sim R G) : Prop :=
  ∀ c machine a, w.scheduled c machine = some a → a.action.machine = machine

/-- A scheduled action is left alone, with no more events of its machine's actions waiting, or
it is carried out and its event is queued. -/
inductive ActionStep (w w' : Sim R G) (c : Bool) (machine : MachineId) : Prop
  | kept (hsame : w'.scheduled c machine = w.scheduled c machine)
      (hfires : w'.sq.carried c machine ≤ w.sq.carried c machine)
  | fired {a : ScheduledAction} {e : SimEvent} (hset : w.scheduled c machine = some a)
      (hgone : w'.scheduled c machine = none) (he : Fires (w.side c) c a e)
      (hfires : w'.sq.carried c machine = e ::ₘ w.sq.carried c machine)

/-- What changes one side, but not its scheduled actions, and no queue. -/
theorem ActionStep.of_side {w w' : Sim R G} {c1 : Bool} {s : SimState R G}
    (hside : ∀ c, w'.side c = if c = c1 then s else w.side c)
    (hs : s.scheduledAction = (w.side c1).scheduledAction) (hsq : w'.sq = w.sq)
    (c : Bool) (machine : MachineId) : ActionStep w w' c machine := by
  apply ActionStep.kept
  · apply scheduled_congr
    rw [hside]
    split
    · rename_i hc
      rw [hs, hc]
    · rfl
  · rw [hsq]

/-- An event that is not about an action is queued after the step. -/
theorem ActionStep.pushSim {w w' : Sim R G} {c : Bool} {machine : MachineId}
    (h : ActionStep w w' c machine) {e : SimEvent} (he : ∀ m, ¬ e.event.OfAction m) :
    ActionStep w (w'.pushSim e) c machine := by
  have hsame : (w'.pushSim e).scheduled c machine = w'.scheduled c machine :=
    scheduled_congr (by rw [pushSim_side]) machine
  have hother : (w'.pushSim e).sq.carried c machine = w'.sq.carried c machine :=
    SimQueue.carried_other fun h => absurd h (he machine)
  cases h with
  | kept h hfires => exact .kept (hsame.trans h) (hother ▸ hfires)
  | fired hset hgone he hfires => exact .fired hset (hsame.trans hgone) he (hother.trans hfires)

/-- An action that is due is carried out, and those of the other machines are left alone. -/
theorem ActionStep.due {w v : Sim R G} {c1 : Bool} {m : MachineId} {a : ScheduledAction}
    {s : SimState R G} {e : SimEvent} (hplaced : w.Placed)
    (hget : (w.side c1).scheduledAction[m]? = some (some a))
    (hside : ∀ c, v.side c = if c = c1 then s else w.side c)
    (hs : s.scheduledAction = (w.side c1).scheduledAction.set m none) (hsq : v.sq = w.sq)
    (he : Fires (w.side c1) c1 a e) (c : Bool) (machine : MachineId) :
    ActionStep w (v.pushSim e) c machine := by
  have hm : m < (w.side c1).scheduledAction.length := (List.getElem?_eq_some_iff.mp hget).1
  have hset : w.scheduled c1 m = some a := Option.join_eq_some_iff.mpr hget
  have hmachine : a.action.machine = m := hplaced c1 m a hset
  obtain ⟨hof, hclient⟩ := he.of_action
  have hv : (v.pushSim e).scheduled c machine =
      if c = c1 ∧ machine = m then none else w.scheduled c machine := by
    rw [← withAction_scheduled hm (w.side c1).scheduledInternalTimer none c machine]
    apply scheduled_congr
    rw [pushSim_side, hside, withAction, side_of_setSide]
    split
    · exact hs
    · rfl
  by_cases hown : c = c1 ∧ machine = m
  · rw [if_pos hown] at hv
    obtain ⟨rfl, rfl⟩ := hown
    refine .fired hset hv he ?_
    rw [hmachine] at hof
    have hpushed := SimQueue.carried_own hof v.sq
    rw [hclient] at hpushed
    exact hpushed.trans (by rw [hsq])
  · rw [if_neg hown] at hv
    refine .kept hv (le_of_eq ?_)
    rw [← hsq]
    apply SimQueue.carried_other
    intro hof' hc
    exact hown ⟨hc.symm.trans hclient, (hof.unique hof').trans hmachine⟩

/-- A round of picking leaves a scheduled action alone, or carries it out. -/
theorem picks_action {w w' : Sim R G} {p : Pick} (hplaced : w.Placed) (h : Picks w p w')
    (c : Bool) (machine : MachineId) : ActionStep w w' c machine := by
  cases h with
  | nothing => exact .kept rfl (le_refl _)
  | delayed => exact .kept (by cases c <;> rfl) (le_refl _)
  | @expiredLater _ _ _ c1 g b delay =>
    let v := w.unblocked b c1 g
    have hv : ActionStep w v c machine :=
      .of_side (fun c => unblocked_side w b c1 c g) rfl (setSide_sq w c1 _) c machine
    exact hv.pushSim fun m hm => by rcases hm with hm | hm <;> simp [blockingEnded] at hm
  | @expiredNow _ _ _ c1 g next b =>
    apply ActionStep.of_side
    · exact fun c => unblocked_side w b c1 c g
    · rfl
    · exact setSide_sq w c1 _
  | queued => exact .kept (by cases c <;> rfl) (SimQueue.carried_popped _ _ _ _ _)
  | @timer _ _ _ c1 m u timers i hq hi hle hlt hdue =>
    have hv : ActionStep w (w.timerFired c1 timers) c machine := by
      apply ActionStep.of_side
      · exact fun c => side_of_setSide w c1 c _
      · rfl
      · exact setSide_sq w c1 _
    exact hv.pushSim fun m hm => by rcases hm with hm | hm <;> simp at hm
  | @padding _ _ _ c1 mi a actions timeout bypass replace m delay g s hq hs hlt hdue ha hd =>
    obtain ⟨hget, hactions⟩ := takeDue_at (f := (·.scheduledAction)) hdue
    have hfires := Fires.padding (s := w.side c1) (c := c1) ha w.rng
    rw [hd] at hfires
    have hside (c : Bool) : Sim.side { w.actionFired c1 actions with rng := g } c =
        if c = c1 then { w.side c1 with scheduledAction := actions } else w.side c :=
      side_of_setSide w c1 c _
    exact .due hplaced hget hside hactions (setSide_sq w c1 _) hfires c machine
  | @block _ _ _ c1 mi a actions timeout duration bypass replace m delay g delay' g' x s hq hs hlt
      hdue ha hd hd' hx =>
    obtain ⟨hget, hactions⟩ := takeDue_at (f := (·.scheduledAction)) hdue
    have hfires := Fires.block (s := w.side c1) (c := c1) ha w.rng g x.blockingBypassable
    rw [hd, hd'] at hfires
    have hx' : x.scheduledAction = actions := by
      subst hx
      unfold SimState.block
      split <;> rfl
    let step := SimStep.blocked c1 a.time (a.time + duration) bypass replace
    exact .due hplaced hget (fun c => blockFired_side w c1 c x g' step) (hx'.trans hactions)
      (setSide_sq w c1 _) hfires c machine

/-- After a round of picking every machine still has its own place. -/
theorem Placed.picks {w w' : Sim R G} {p : Pick} (h : w.Placed) (hp : Picks w p w') :
    w'.Placed := by
  intro c machine a ha
  cases picks_action h hp c machine with
  | kept hsame => exact h c machine a (hsame ▸ ha)
  | fired _ hgone => exact absurd (hgone.symm.trans ha) (by simp)

theorem Placed.applyAction {w w' : Sim R G} {c : Bool} {delay : Duration}
    {b : TriggerAction Duration} (h : w.Placed) (hb : applyAction c delay w b = .ok w') :
    w'.Placed := by
  intro c' machine a ha
  by_cases hset : c = c' ∧ b.SetsAction machine
  · obtain ⟨rfl, hset⟩ := hset
    have hplan : w'.scheduled c machine = b.planned (w.currentTime + delay) :=
      congrArg (·.1) (applyAction_own hset hb)
    rw [ha] at hplan
    cases b with
    | cancel => exact absurd hplan (by simp [TriggerAction.planned])
    | updateTimer => exact hset.elim
    | sendPadding | blockOutgoing =>
      obtain rfl := Option.some.inj hplan
      exact hset
  · have hplan := applyAction_aside (c := c') hb fun hc hs => hset ⟨hc, hs⟩
    exact h c' machine a ((congrArg (·.1) hplan).symm.trans ha)

theorem Placed.iterate [RngCore R] {args : SimulatorArgs G} {w w' : Sim R G} {e : SimEvent}
    {stop : Bool} (h : w.Placed) (hit : w.iterate args e = .ok (stop, w')) : w'.Placed := by
  obtain ⟨actions, _, _, w1, w2, _, _, hw1, hfold, hw'⟩ := iterate_plans hit
  have hplaced1 : w1.Placed := fun c machine a ha =>
    h c machine a ((congrArg (·.1) (hw1 c machine)).symm.trans ha)
  have hplaced2 : w2.Placed :=
    foldlM_keeps (P := Placed) (fun v b _ v' hv hstep => hv.applyAction hstep) hplaced1 hfold
  intro c machine a ha
  exact hplaced2 c machine a ((congrArg (·.1) (hw' c machine)).symm.trans ha)

end Sim

namespace Config
open Sim

variable [RngCore R]

theorem next_integration {args : SimulatorArgs G} {cfg cfg' : Config R G}
    (h : cfg.next args = .ok cfg') (c : Bool) :
    (cfg'.sim.side c).integration = (cfg.sim.side c).integration := by
  cases cfg with
  | picking w =>
    obtain ⟨p, w', hstep, rfl⟩ := next_picking h
    rw [place_sim]
    exact (picks_fixed (pickStep_ok hstep) c).1
  | returned e w =>
    obtain ⟨_, w', hit, rfl, _⟩ := next_returned h
    exact (iterates_hears (iterate_ok hit).1 c).integration
  | done w => exact pure_ok.mp h ▸ rfl

/-- In every place of a run each machine has its own place among the scheduled actions. -/
theorem reachable_placed {args : SimulatorArgs G} {sq : SimQueue} {cfg : Config R G}
    (h : Reachable args sq cfg) : cfg.sim.Placed := by
  refine h.invariant (P := fun cfg => cfg.sim.Placed) ?_ ?_
  · rintro cfg ⟨_, _, _, _, _, w, hstart, rfl⟩ c machine a ha
    obtain ⟨_, hclient, hserver, _⟩ := start_ok hstart
    obtain ⟨n, hn⟩ : ∃ n, (w.side c).scheduledAction = List.replicate n none := by
      cases c with
      | false => exact ⟨_, (new_state hserver).2.2.2.1⟩
      | true => exact ⟨_, (new_state hclient).2.2.2.1⟩
    exact absurd (List.eq_of_mem_replicate (hn ▸ scheduled_mem ha)) (by simp)
  · rintro cfg cfg' hcfg ⟨-, hnext⟩
    cases cfg with
    | picking w =>
      obtain ⟨p, w', hstep, rfl⟩ := next_picking hnext
      rw [place_sim]
      exact hcfg.picks (pickStep_ok hstep)
    | returned e w =>
      obtain ⟨_, w', hit, rfl, _⟩ := next_returned hnext
      exact hcfg.iterate hit
    | done w => exact pure_ok.mp hnext ▸ hcfg

/-- The next step has no action of the side's framework that sets or clears the scheduled
action of a machine. -/
def Undisturbed (c : Bool) (machine : MachineId) : Config R G → Prop
  | .returned e w => e.client = c → ∀ actions framework,
      (w.side c).framework.triggerEvents [e.event] e.time = .ok (actions, framework) →
        ∀ a ∈ actions, ¬ a.SetsAction machine
  | .picking _ | .done _ => True

/-- The runs from a place on that leave the scheduled action of a machine alone, each with the
events that were queued on the way to say that an action of the machine was carried out. -/
abbrev Plans (args : SimulatorArgs G) (c : Bool) (machine : MachineId) (first : Config R G) :
    Config R G × Multiset SimEvent → Prop :=
  Reach (fun r => r = (first, 0)) fun r r' => r.1.Undisturbed c machine ∧
    r.1.next args = .ok r'.1 ∧ r'.2 = r.2 + (r'.1.sim.sq.carried c machine -
      r.1.sim.sq.carried c machine)

/-- A step that leaves a scheduled action alone, or carries it out. -/
theorem next_action {args : SimulatorArgs G} {cfg cfg' : Config R G} {c : Bool}
    {machine : MachineId} (hplaced : cfg.sim.Placed) (hnext : cfg.next args = .ok cfg')
    (hno : cfg.Undisturbed c machine) : ActionStep cfg.sim cfg'.sim c machine := by
  cases cfg with
  | picking w =>
    obtain ⟨p, w', hstep, rfl⟩ := next_picking hnext
    rw [place_sim]
    exact picks_action hplaced (pickStep_ok hstep) c machine
  | returned e w =>
    obtain ⟨_, w', hit, rfl, _⟩ := next_returned hnext
    obtain ⟨hsame, hcarried⟩ := Prod.mk.inj (iterate_aside hit hno)
    exact .kept hsame (le_of_eq hcarried)
  | done w => exact .kept (pure_ok.mp hnext ▸ rfl) (pure_ok.mp hnext ▸ le_refl _)

/-- What is scheduled is still ahead and no action was carried out, or it was, once. -/
def OnceOrAhead (s : SimState R G) (c : Bool) (machine : MachineId) (x : Option ScheduledAction)
    (r : Config R G × Multiset SimEvent) : Prop :=
  r.1.sim.scheduled c machine = x ∧ (∀ a ∈ x, r.1.now ≤ a.time) ∧ r.2 = 0 ∨
    r.1.sim.scheduled c machine = none ∧ ∃ a ∈ x, ∃ e, Fires s c a e ∧ r.2 = {e}

theorem plans_action {args : SimulatorArgs G} {sq : SimQueue} (hwf : sq.WellFormed)
    {first : Config R G} (hfirst : Reachable args sq first) {c : Bool} {machine : MachineId}
    {r : Config R G × Multiset SimEvent} (h : Plans args c machine first r) :
    OnceOrAhead (first.sim.side c) c machine (first.sim.scheduled c machine) r := by
  have hahead {cfg : Config R G} (hr : Reachable args sq cfg) {a : ScheduledAction}
      (ha : cfg.sim.scheduled c machine = some a) : cfg.now ≤ a.time :=
    (run_ahead hwf hr).2.actions c a (scheduled_mem ha)
  have hall : Reachable args sq r.1 ∧
      (r.1.sim.side c).integration = (first.sim.side c).integration ∧
      OnceOrAhead (first.sim.side c) c machine (first.sim.scheduled c machine) r := by
    refine h.invariant (P := fun r => Reachable args sq r.1 ∧
      (r.1.sim.side c).integration = (first.sim.side c).integration ∧
      OnceOrAhead (first.sim.side c) c machine (first.sim.scheduled c machine) r) ?_ ?_
    · intro r hr
      subst hr
      exact ⟨hfirst, rfl, .inl ⟨rfl, fun a ha => hahead hfirst ha, rfl⟩⟩
    · intro r r' hr hstep
      obtain ⟨hreach, hintegration, hr⟩ := hr
      obtain ⟨hno, hnext, hfires⟩ := hstep
      have hreach' : Reachable args sq r'.1 := .next hreach ⟨trivial, hnext⟩
      refine ⟨hreach', (next_integration hnext c).trans hintegration, ?_⟩
      cases next_action (reachable_placed hreach) hnext hno with
      | kept hsame hle =>
        have hnone : r'.2 = r.2 := by rw [hfires, tsub_eq_zero_of_le hle, add_zero]
        rcases hr with ⟨hset, _, hzero⟩ | ⟨hgone, hone⟩
        · have hset' := hsame.trans hset
          refine .inl ⟨hset', fun a ha => hahead hreach' (hset'.trans ha), hnone.trans hzero⟩
        · exact .inr ⟨hsame.trans hgone, hnone ▸ hone⟩
      | @fired a e hset hgone he hcons =>
        rcases hr with ⟨hsame, _, hzero⟩ | ⟨hgone', _⟩
        · refine .inr ⟨hgone, a, hsame.symm.trans hset, e, he.congr hintegration.symm, ?_⟩
          rw [hfires, hcons, hzero, zero_add, ← Multiset.singleton_add, add_tsub_cancel_right]
        · exact absurd (hgone'.symm.trans hset) (by simp)
  exact hall.2.2

/-- What the framework asked for a machine is carried out: a timed action exactly once, when it is
due, and after a cancellation none, unless the framework asks for something else in time. -/
structure Performed (args : SimulatorArgs G) (c : Bool) (machine : MachineId)
    (x : Option ScheduledAction) (w : Sim R G) (cfg : Config R G) : Prop where
  scheduled : cfg.sim.scheduled c machine = x
  carried : cfg.sim.sq.carried c machine = w.sq.carried c machine
  once : ∀ r, Plans args c machine cfg r → OnceOrAhead (w.side c) c machine x r

/-- What the client's framework asks for when its only packet is sent, if it can be done. -/
def askedOnce : Option (List (TriggerAction Duration)) := do
  let args : SimulatorArgs Unit := .new ⟨10, none⟩ 0 true
  let w ← (Sim.start [blocker 5] [] oneSent args () () ()).toOption
  match ← ((Config.picking w).after args 1).toOption with
  | .returned e w' =>
    let (actions, _) ← ((w'.side e.client).framework.triggerEvents [e.event] e.time).toOption
    let _ ← ((Config.returned e w').next args).toOption
    return actions
  | _ => none

end Config

end Maybenot

import Maybenot.Proofs.Turns

namespace Maybenot
open Lib

theorem at?_map (f : α → β) (xs : List α) (i : Nat) : at? (xs.map f) i = (at? xs i).map f := by
  unfold at?
  rw [List.getElem?_map]
  cases xs[i]? <;> rfl

variable {R T D T' D' : Type} [Time.Duration D] [Time.Instant T D] [Time.Duration D']
  [Time.Instant T' D']

/-- Maps of instants and of durations that keep what the framework does with them. -/
structure KeepsTime (instant : T → T') (duration : D → D') : Prop where
  since t u : Time.Instant.saturatingDurationSince (instant t) (instant u) =
    duration (Time.Instant.saturatingDurationSince t u)
  zero : duration Time.Duration.zero = Time.Duration.zero
  fromMicros n : duration (Time.Duration.fromMicros n) = Time.Duration.fromMicros n
  isZero d : Time.Duration.isZero (duration d) = Time.Duration.isZero d
  divDurationF64 d e :
    Time.Duration.divDurationF64 (duration d) (duration e) = Time.Duration.divDurationF64 d e
  add d e : duration (Time.Duration.add d e) = Time.Duration.add (duration d) (duration e)
  lt d e : Time.Duration.lt (duration d) (duration e) = Time.Duration.lt d e

structure TimeMap (T D T' D' : Type) [Time.Duration D] [Time.Instant T D] [Time.Duration D']
    [Time.Instant T' D'] where
  instant : T → T'
  duration : D → D'
  keeps : KeepsTime instant duration

def TriggerAction.map (g : D → D') : TriggerAction D → TriggerAction D'
  | .cancel machine timer => .cancel machine timer
  | .sendPadding timeout bypass replace machine => .sendPadding (g timeout) bypass replace machine
  | .blockOutgoing timeout duration bypass replace machine =>
    .blockOutgoing (g timeout) (g duration) bypass replace machine
  | .updateTimer duration replace machine => .updateTimer (g duration) replace machine

namespace TimeMap
open Framework
variable (φ : TimeMap T D T' D')

def runtime (rt : MachineRuntime T D) : MachineRuntime T' D' where
  currentState := rt.currentState
  stateLimit := rt.stateLimit
  paddingSent := rt.paddingSent
  normalSent := rt.normalSent
  blockingDuration := φ.duration rt.blockingDuration
  machineStart := φ.instant rt.machineStart
  allowedBlockedMicrosec := φ.duration rt.allowedBlockedMicrosec
  counterA := rt.counterA
  counterB := rt.counterB

def framework (f : Framework R T D) : Framework R T' D' where
  currentTime := φ.instant f.currentTime
  rng := f.rng
  actions := f.actions.map (Option.map (TriggerAction.map φ.duration))
  machines := f.machines
  runtime := f.runtime.map φ.runtime
  maxPaddingFrac := f.maxPaddingFrac
  normalSentPackets := f.normalSentPackets
  paddingSentPackets := f.paddingSentPackets
  maxBlockingFrac := f.maxBlockingFrac
  blockingDuration := φ.duration f.blockingDuration
  blockingStarted := φ.instant f.blockingStarted
  blockingActive := f.blockingActive
  signalPending := f.signalPending
  counterZeroedOnce := f.counterZeroedOnce
  frameworkStart := φ.instant f.frameworkStart
  log := f.log

theorem framework_setRuntime (f : Framework R T D) (mi : Nat) (rt : MachineRuntime T D) :
    (φ.framework f).setRuntime mi (φ.runtime rt) = φ.framework (f.setRuntime mi rt) := by
  simp only [Framework.setRuntime, framework, List.map_set]

variable [RngCore R]

theorem framework_enterState (f : Framework R T D) (mi : Nat) (rt : MachineRuntime T D) (s : Nat)
    (st : State) :
    (φ.framework f).enterState mi (φ.runtime rt) s st = φ.framework (f.enterState mi rt s st) := by
  unfold Framework.enterState
  change (if rt.currentState = s then _ else _) = _
  split
  · rfl
  · split
    · exact framework_setRuntime φ f mi { rt with currentState := s, stateLimit := stateLimitMax }
    · rename_i a _
      exact framework_setRuntime φ { f with rng := (a.sampleLimit f.rng).2 } mi
        { rt with currentState := s, stateLimit := (a.sampleLimit f.rng).1 }

theorem framework_applyCounters (f : Framework R T D) (mi : Nat) (rt : MachineRuntime T D)
    (st : State) :
    (φ.framework f).applyCounters mi (φ.runtime rt) st =
      ((f.applyCounters mi rt st).1, φ.framework (f.applyCounters mi rt st).2) := by
  unfold Framework.applyCounters
  refine Prod.ext rfl ?_
  simp only [Framework.setRuntime, framework, List.map_set]
  rfl

omit [RngCore R] in
theorem framework_belowActionLimits (f : Framework R T D) (rt : MachineRuntime T D) (m : Machine) :
    (φ.framework f).belowActionLimits (φ.runtime rt) m = f.belowActionLimits rt m := by
  have hblock (st : State) : (φ.framework f).belowLimitBlocking (φ.runtime rt) m st =
      f.belowLimitBlocking rt m st := by
    unfold Framework.belowLimitBlocking
    cases hactive : f.blockingActive
    all_goals
      simp only [framework, runtime, hactive, Bool.and_true, Bool.and_false, Bool.false_eq_true,
        if_true, if_false, φ.keeps.since, ← φ.keeps.add, φ.keeps.lt, φ.keeps.divDurationF64]
      rfl
  unfold Framework.belowActionLimits
  refine bind_same rfl fun st _ => ?_
  simp only [hblock]
  rfl

omit [RngCore R] in
theorem framework_setAction (f : Framework R T D) (mi : Nat) (a : Option (TriggerAction D)) :
    (φ.framework f).setAction mi (a.map (TriggerAction.map φ.duration)) =
      (f.setAction mi a).map φ.framework := by
  unfold Framework.setAction
  simp only [framework, List.length_map, apply_ite (Except.map φ.framework)]
  split <;> simp [Except.map, framework]

theorem framework_scheduleAction (f : Framework R T D) (mi s : Nat) :
    (φ.framework f).scheduleAction mi s = (f.scheduleAction mi s).map φ.framework := by
  have htrigger (a : Action) (rng : R) :
      Framework.triggerAction (D := D') mi a rng =
        ((Framework.triggerAction (D := D) mi a rng).1.map φ.duration,
          (Framework.triggerAction (D := D) mi a rng).2) := by
    cases a <;> simp only [Framework.triggerAction, TriggerAction.map, φ.keeps.fromMicros]
  unfold Framework.scheduleAction
  refine bind_alike fun m => bind_alike fun st => ?_
  split
  · exact φ.framework_setAction f mi none
  · rename_i a _
    rw [show (φ.framework f).rng = f.rng from rfl, htrigger a f.rng]
    exact φ.framework_setAction { f with rng := (Framework.triggerAction (D := D) mi a f.rng).2 } mi
      (some (Framework.triggerAction mi a f.rng).1)


omit [RngCore R] in
theorem framework_at? (f : Framework R T D) (mi : Nat) :
    at? (φ.framework f).runtime mi = (at? f.runtime mi).map φ.runtime :=
  at?_map φ.runtime f.runtime mi

theorem framework_scheduleIf (f : Framework R T D) (allowed : Bool) (mi s limit : Nat) :
    (φ.framework f).scheduleIf allowed mi s limit =
      (f.scheduleIf allowed mi s limit).map φ.framework := by
  unfold Framework.scheduleIf
  split
  · exact φ.framework_scheduleAction (f.note (.scheduled mi s limit)) mi s
  · rfl

def moved (r : α × Framework R T D) : α × Framework R T' D' := (r.1, φ.framework r.2)

/-- The rest of a transition, from where the machine has come to a real state. -/
def arrived (mi s : Nat) (rt : MachineRuntime T D) (m : Machine) (f : Framework R T D) :
    Exec (StateChange × Framework R T D) := do
  let entered ← at? f.runtime mi
  let f := f.note (.entered mi s entered.stateLimit)
  let belowLimits ← f.belowActionLimits entered m
  let ((allowSchedule, stateChanged), f) ← f.updateCounter mi
  let f ← f.scheduleIf (allowSchedule && belowLimits) mi s entered.stateLimit
  let after ← at? f.runtime mi
  if rt.currentState = after.currentState ∧ stateChanged = false then
    return (.unchanged, f)
  else
    return (.changed, f)

theorem arrived_map {mi s : Nat} {rt : MachineRuntime T D} {m : Machine} {f : Framework R T D}
    (h : ∀ g : Framework R T D, g.zeroBudget = f.zeroBudget →
      (φ.framework g).updateCounter mi = (g.updateCounter mi).map φ.moved) :
    arrived mi s (φ.runtime rt) m (φ.framework f) = (arrived mi s rt m f).map φ.moved := by
  refine bind_carried (φ.framework_at? f mi) fun entered => ?_
  rw [show (φ.runtime entered).stateLimit = entered.stateLimit from rfl]
  refine (congrArg (· >>= _) (φ.framework_belowActionLimits (f.note _) entered m)).trans ?_
  refine bind_alike fun below => bind_carried (h (f.note _) rfl) fun r => ?_
  refine bind_carried (φ.framework_scheduleIf r.2 (r.1.1 && below) mi s _) fun g => ?_
  refine bind_carried (φ.framework_at? g mi) fun after => ?_
  change (if rt.currentState = after.currentState ∧ r.1.2 = false then _ else _) = _
  split <;> rfl

theorem framework_transition' (n : Nat) (f : Framework R T D) (mi : Nat) :
    (2 * f.zeroBudget < n → (φ.framework f).updateCounter mi = (f.updateCounter mi).map φ.moved) ∧
    (2 * f.zeroBudget + 1 < n → ∀ event,
      (φ.framework f).transition mi event = (f.transition mi event).map φ.moved) := by
  induction n generalizing f with
  | zero => exact ⟨fun h => absurd h (Nat.not_lt_zero _), fun h => absurd h (Nat.not_lt_zero _)⟩
  | succ n ih =>
    constructor
    · intro hn
      rw [Framework.updateCounter, Framework.updateCounter]
      refine bind_carried (φ.framework_at? f mi) fun rt =>
        bind_alike fun m => bind_alike fun st => ?_
      rw [φ.framework_applyCounters]
      by_cases hz : (f.applyCounters mi rt st).1 = true
      · have hless := Framework.zeroBudget_applyCounters hz
        simp only [hz, dite_true]
        refine bind_carried ((ih _).2 (by omega) _) fun r => ?_
        refine bind_carried (at?_map _ _ _) fun a => ?_
        cases a <;> rfl
      · simp only [hz]
        rfl
    · intro hn event
      rw [Framework.transition, Framework.transition]
      refine bind_carried (φ.framework_at? (f.note (.performed mi event)) mi) fun rt => ?_
      change (if rt.currentState = stateEnd then _ else _) = _
      split
      · rfl
      refine bind_alike fun m => bind_alike fun st => ?_
      rw [show ((φ.framework f).note (.performed mi event)).rng =
        (f.note (.performed mi event)).rng from rfl]
      generalize st.sampleState event (f.note (.performed mi event)).rng = r
      obtain ⟨next, rng⟩ := r
      cases next with
      | none => rfl
      | some s =>
        let g : Framework R T D :=
          note { f.note (.performed mi event) with rng := rng } (.sampled mi s)
        dsimp only
        split
        · exact congrArg (fun x => (pure (StateChange.changed, x) : Exec _))
            (φ.framework_setRuntime g mi { rt with currentState := stateEnd })
        split
        · rfl
        refine bind_alike fun next => ?_
        refine (congrArg (arrived mi s (φ.runtime rt) m)
          (φ.framework_enterState g mi rt s next)).trans ?_
        refine φ.arrived_map fun h hh => (ih h).1 ?_
        rw [hh, zeroBudget_enterState]
        exact Nat.lt_of_succ_lt_succ hn

theorem framework_transition (f : Framework R T D) (mi : Nat) (event : Event) :
    (φ.framework f).transition mi event = (f.transition mi event).map φ.moved :=
  (φ.framework_transition' _ f mi).2 (Nat.lt_succ_self _) event

theorem framework_transitionOnly (event : Event) (f : Framework R T D) (mi : Nat) :
    transitionOnly event (φ.framework f) mi = (transitionOnly event f mi).map φ.framework :=
  bind_carried (φ.framework_transition f mi event) fun _ => rfl

theorem framework_decrementLimit (f : Framework R T D) (mi : Nat) :
    (φ.framework f).decrementLimit mi = (f.decrementLimit mi).map φ.framework := by
  refine bind_carried (φ.framework_at? f mi) fun rt => ?_
  dsimp only
  rw [show (φ.framework f).setRuntime mi
      { φ.runtime rt with stateLimit := (φ.runtime rt).stateLimit - 1 } = _ from
    φ.framework_setRuntime f mi { rt with stateLimit := rt.stateLimit - 1 }]
  refine bind_alike fun m => bind_alike fun st => ?_
  cases st.action with
  | none => rfl
  | some action =>
    change (if rt.stateLimit - 1 = 0 ∧ action.hasLimit = true then _ else _) = _
    dsimp only
    split
    · refine bind_carried (φ.framework_setAction _ mi none) fun g => ?_
      exact bind_carried (φ.framework_transition g mi .limitReached) fun _ => rfl
    · rfl

theorem framework_transitionLimited (event : Event) (f : Framework R T D) (mi : Nat) :
    transitionLimited event (φ.framework f) mi =
      (transitionLimited event f mi).map φ.framework := by
  refine bind_carried (φ.framework_transition f mi event) fun r => ?_
  refine bind_carried (φ.framework_at? r.2 mi) fun rt => ?_
  change (if r.1 = .unchanged ∧ rt.currentState ≠ stateEnd then _ else _) = _
  split
  · exact φ.framework_decrementLimit r.2 mi
  · rfl

omit [RngCore R] in
theorem framework_eachMachine {step : Framework R T D → Nat → Exec (Framework R T D)}
    {step' : Framework R T' D' → Nat → Exec (Framework R T' D')}
    (h : ∀ f mi, step' (φ.framework f) mi = (step f mi).map φ.framework) (f : Framework R T D) :
    (φ.framework f).eachMachine step' = (f.eachMachine step).map φ.framework := by
  unfold eachMachine
  rw [show (φ.framework f).runtime.length = f.runtime.length from List.length_map _]
  exact foldlM_carried h _ f

omit [RngCore R] in
theorem framework_blockedFor (f : Framework R T D) :
    (φ.framework f).blockedFor = φ.duration f.blockedFor := by
  change (if f.blockingActive = true then _ else _) = φ.duration (if f.blockingActive = true then _
    else _)
  split
  · exact φ.keeps.since _ _
  · exact φ.keeps.zero.symm

omit [RngCore R] in
theorem framework_recorded (f : Framework R T D) (e : TriggerEvent) :
    (φ.framework f).recorded e = φ.framework (f.recorded e) := by
  cases e with
  | blockingBegin _ =>
    change (if f.blockingActive = true then _ else _) =
      φ.framework (if f.blockingActive = true then _ else _)
    split <;> rfl
  | blockingEnd =>
    simp only [recorded, framework_blockedFor]
    change (if f.blockingActive = true then _ else _) =
      φ.framework (if f.blockingActive = true then _ else _)
    split
    · simp only [framework, φ.keeps.add]
    · rfl
  | _ => rfl

theorem runtime_recorded (rt : MachineRuntime T D) (e : TriggerEvent) (blocked : D) :
    (φ.runtime rt).recorded e (φ.duration blocked) = φ.runtime (rt.recorded e blocked) := by
  cases e with
  | blockingEnd =>
    simp only [MachineRuntime.recorded, φ.keeps.isZero]
    split
    · rfl
    · simp only [runtime, φ.keeps.add]
  | _ => rfl

theorem framework_turn (e : TriggerEvent) (blocked : D) (f : Framework R T D) (mi : Nat) :
    turn e (φ.duration blocked) (φ.framework f) mi = (turn e blocked f mi).map φ.framework := by
  unfold turn
  split
  · refine bind_carried (φ.framework_at? f mi) fun rt => ?_
    rw [φ.runtime_recorded, φ.framework_setRuntime]
    split
    · exact φ.framework_transitionLimited _ _ mi
    · exact φ.framework_transitionOnly _ _ mi
  · rfl

theorem framework_processEvent (f : Framework R T D) (e : TriggerEvent) :
    (φ.framework f).processEvent e = (f.processEvent e).map φ.framework := by
  rw [processEvent_eq, processEvent_eq, φ.framework_blockedFor, φ.framework_recorded]
  exact φ.framework_eachMachine (φ.framework_turn e f.blockedFor) _

theorem framework_signalAll (f : Framework R T D) (excluded : Option Nat) :
    (φ.framework f).signalAll excluded = (f.signalAll excluded).map φ.framework := by
  refine φ.framework_eachMachine (fun f mi => ?_) f
  split
  · rfl
  · exact φ.framework_transitionOnly .signal f mi

theorem framework_deliverSignal (f : Framework R T D) :
    (φ.framework f).deliverSignal = f.deliverSignal.map φ.framework := by
  unfold deliverSignal
  rw [show (φ.framework f).signalPending = f.signalPending from rfl]
  cases f.signalPending with
  | none => rfl
  | some signal =>
    refine bind_carried (φ.framework_signalAll { f with signalPending := none } _) fun g => ?_
    cases signal with
    | all => rfl
    | allExcept excluded =>
      change (if g.signalPending.isSome = true then _ else _) = Except.map _
        (if g.signalPending.isSome = true then _ else _)
      split
      · exact φ.framework_transitionOnly .signal { g with signalPending := none } excluded
      · rfl

theorem framework_triggerEvents (f : Framework R T D) (events : List TriggerEvent) (now : T) :
    (φ.framework f).triggerEvents events (φ.instant now) =
      (f.triggerEvents events now).map fun r =>
        (r.1.map (TriggerAction.map φ.duration), φ.framework r.2) := by
  have hstart : (φ.framework f).startCall (φ.instant now) = φ.framework (f.startCall now) := by
    simp only [startCall, framework, List.map_map, Function.comp_def, Option.map_none]
  have hprocess : ((φ.framework f).startCall (φ.instant now)).processEvents events =
      ((f.startCall now).processEvents events).map φ.framework := by
    rw [hstart]
    exact foldlM_carried φ.framework_processEvent events _
  refine bind_carried hprocess fun g => bind_carried (φ.framework_deliverSignal g) fun g => ?_
  refine congrArg (fun as => (pure (as, φ.framework g) : Exec _)) ?_
  change (g.actions.map (Option.map (TriggerAction.map φ.duration))).filterMap id = _
  rw [List.filterMap_map, List.map_filterMap]
  rfl

theorem runtime_startRuntime (now : T) (m : Machine) :
    startRuntime (φ.instant now) m = φ.runtime (startRuntime now m) := by
  simp only [startRuntime, runtime, φ.keeps.zero, φ.keeps.fromMicros]

theorem startLimit_map (acc : List (MachineRuntime T D) × R) (p : MachineRuntime T D × Machine) :
    startLimit (acc.1.map φ.runtime, acc.2) (φ.runtime p.1, p.2) =
      (startLimit acc p).map fun r => (r.1.map φ.runtime, r.2) := by
  refine bind_alike fun st => ?_
  cases st.action with
  | none => simp [Except.map, pure, Except.pure]
  | some action => simp [Except.map, pure, Except.pure, runtime]

theorem framework_new (machines : List Machine) (padding blocking : F64) (now : T) (rng : R) :
    Framework.new machines padding blocking (φ.instant now) rng =
      (Framework.new machines padding blocking now rng).map (Except.map φ.framework) := by
  unfold Framework.new
  split
  · rfl
  split
  · rfl
  cases machines.forM (Machine.validate R) with
  | error e => rfl
  | ok u =>
    have hstart : (machines.map (startRuntime (φ.instant now))).zip machines =
        ((machines.map (startRuntime now)).zip machines).map fun p => (φ.runtime p.1, p.2) := by
      rw [show machines.map (startRuntime (φ.instant now)) =
        (machines.map (startRuntime now)).map φ.runtime by simp [φ.runtime_startRuntime]]
      rw [List.zip_map_left]
      rfl
    have hfold : ((machines.map (startRuntime (φ.instant now))).zip machines).foldlM startLimit
        ([], rng) = (((machines.map (startRuntime now)).zip machines).foldlM startLimit
          ([], rng)).map fun r => (r.1.map φ.runtime, r.2) := by
      rw [hstart, List.foldlM_map]
      refine foldlM_carried (g := fun r => (r.1.map φ.runtime, r.2)) ?_ _ ([], rng)
      intro acc p
      exact φ.startLimit_map acc p
    refine bind_carried hfold fun r => ?_
    simp [Except.map, pure, Except.pure, framework, φ.keeps.zero]

end TimeMap

end Maybenot

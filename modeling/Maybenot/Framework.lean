import Maybenot.Machine
import Maybenot.Time

namespace Maybenot
open Lib

/-- What makes the code panic, and the one fault of the model: a loop cut short. -/
inductive Fault where
  | outOfBounds
  | unwrapNone
  | unwrapError
  | overflow
  | divideByZero
  | timeBackwards
  | noInternalAction
  | noAction
  | cancelScheduled
  | updateTimerScheduled
  | invalidTrace
  | outOfFuel
deriving DecidableEq

abbrev Exec := Except Fault

def at? (xs : List α) (i : Nat) : Exec α :=
  match xs[i]? with
  | some x => .ok x
  | none => .error .outOfBounds

inductive TriggerAction (D : Type) where
  | cancel (machine : MachineId) (timer : Timer)
  | sendPadding (timeout : D) (bypass replace : Bool) (machine : MachineId)
  | blockOutgoing (timeout duration : D) (bypass replace : Bool) (machine : MachineId)
  | updateTimer (duration : D) (replace : Bool) (machine : MachineId)
deriving DecidableEq

structure MachineRuntime (T D : Type) where
  currentState : Nat
  stateLimit : Nat
  paddingSent : Nat
  normalSent : Nat
  blockingDuration : D
  machineStart : T
  allowedBlockedMicrosec : D
  counterA : Nat
  counterB : Nat
deriving DecidableEq

inductive StateChange where
  | changed | unchanged
deriving DecidableEq

inductive SignalTarget where
  | all
  | allExcept (excluded : Nat)
deriving DecidableEq

/-- A record of what a call did. No function of the framework reads it. -/
inductive Step where
  | performed (mi : Nat) (event : Event)
  | sampled (mi : Nat) (state : Nat)
  | entered (mi : Nat) (state limit : Nat)
  | scheduled (mi : Nat) (state limit : Nat)
deriving DecidableEq

structure Framework (R T D : Type) where
  currentTime : T
  rng : R
  actions : List (Option (TriggerAction D))
  machines : List Machine
  runtime : List (MachineRuntime T D)
  maxPaddingFrac : F64
  normalSentPackets : Nat
  paddingSentPackets : Nat
  maxBlockingFrac : F64
  blockingDuration : D
  blockingStarted : T
  blockingActive : Bool
  signalPending : Option SignalTarget
  counterZeroedOnce : Bool × Bool
  frameworkStart : T
  /-- What the last call of `triggerEvents` did, in order. -/
  log : List Step
deriving DecidableEq

def Machine.stateAt (m : Machine) (i : Nat) : Exec State := at? m.states i

/-- The effect of sampling `STATE_SIGNAL` on the pending signal: a second one
makes the signal go to all machines, whichever machine the first came from. -/
def raiseSignal (pending : Option SignalTarget) (mi : Nat) : Option SignalTarget :=
  match pending with
  | none => some (.allExcept mi)
  | some _ => some .all

/-- The update of one counter: its new value and whether it was zeroed just now. -/
def counterChange {R : Type} [RngCore R] (c : Option Counter) (other value : Nat) (once : Bool)
    (rng : R) : Nat × Bool × R :=
  match c with
  | none => (value, false, rng)
  | some c =>
    let (change, rng) := if c.copy then (other, rng) else c.sampleValue rng
    let updated := c.operation.apply value change
    (updated, value ≠ 0 && updated = 0 && !once, rng)

namespace Framework

variable {R T D : Type}

def note (f : Framework R T D) (s : Step) : Framework R T D := { f with log := f.log ++ [s] }

def setRuntime (f : Framework R T D) (mi : Nat) (rt : MachineRuntime T D) : Framework R T D :=
  { f with runtime := f.runtime.set mi rt }

def setAction (f : Framework R T D) (mi : Nat) (a : Option (TriggerAction D)) :
    Exec (Framework R T D) :=
  if mi < f.actions.length then .ok { f with actions := f.actions.set mi a }
  else .error .outOfBounds

/-- How many counters may still be zeroed in this call. -/
def zeroBudget (f : Framework R T D) : Nat :=
  (!f.counterZeroedOnce.1).toNat + (!f.counterZeroedOnce.2).toNat

theorem zeroBudget_note (f : Framework R T D) (s : Step) :
    (f.note s).zeroBudget = f.zeroBudget := rfl

/-- The range check of a fraction, which NaN fails. -/
def isFraction (x : F64) : Bool := (Val.fin 0).le x.val && x.val.le (.fin 1)

section Sampling
variable [RngCore R]

/-- Go to the same or a different state; only a different one samples a new limit. -/
def enterState (f : Framework R T D) (mi : Nat) (rt : MachineRuntime T D) (next : Nat)
    (state : State) : Framework R T D :=
  if rt.currentState = next then f
  else
    match state.action with
    | none => f.setRuntime mi { rt with currentState := next, stateLimit := stateLimitMax }
    | some action =>
      let (limit, rng) := action.sampleLimit f.rng
      setRuntime { f with rng := rng } mi { rt with currentState := next, stateLimit := limit }

/-- The part of `updateCounter` before the event: the counters and the flags that let
each be zeroed once in a call. The answer is whether any counter was zeroed. -/
def applyCounters (f : Framework R T D) (mi : Nat) (rt : MachineRuntime T D) (state : State) :
    Bool × Framework R T D :=
  let (a, zeroedA, rng) :=
    counterChange state.counter.1 rt.counterB rt.counterA f.counterZeroedOnce.1 f.rng
  let (b, zeroedB, rng) :=
    counterChange state.counter.2 rt.counterA rt.counterB f.counterZeroedOnce.2 rng
  (zeroedA || zeroedB,
    setRuntime { f with
      rng := rng
      counterZeroedOnce := (f.counterZeroedOnce.1 || zeroedA, f.counterZeroedOnce.2 || zeroedB) }
      mi { rt with counterA := a, counterB := b })

theorem zeroBudget_enterState (f : Framework R T D) (mi : Nat) (rt : MachineRuntime T D)
    (next : Nat) (state : State) : (f.enterState mi rt next state).zeroBudget = f.zeroBudget := by
  unfold enterState
  split
  · rfl
  · split <;> rfl

theorem counterChange_zeroed {c : Option Counter} {other value : Nat} {once : Bool} {rng : R}
    (h : (counterChange c other value once rng).2.1 = true) : once = false := by
  cases c with
  | none => simp [counterChange] at h
  | some c =>
    simp only [counterChange, Bool.and_eq_true, Bool.not_eq_true'] at h
    exact h.2

theorem budget_drops (p q za zb : Bool) (ha : za = true → p = false) (hb : zb = true → q = false)
    (h : (za || zb) = true) :
    (!(p || za)).toNat + (!(q || zb)).toNat < (!p).toNat + (!q).toNat := by
  revert p q za zb
  decide

/-- Each zeroing uses up one of the two flags of the call. -/
theorem zeroBudget_applyCounters {f : Framework R T D} {mi : Nat} {rt : MachineRuntime T D}
    {state : State} (h : (f.applyCounters mi rt state).1 = true) :
    (f.applyCounters mi rt state).2.zeroBudget < f.zeroBudget :=
  budget_drops _ _ _ _ counterChange_zeroed counterChange_zeroed h

end Sampling

variable [RngCore R] [Time.Duration D] [Time.Instant T D]

/-- The limits of the runtime a machine starts with. -/
def startRuntime (now : T) (m : Machine) : MachineRuntime T D where
  currentState := 0
  stateLimit := 0
  paddingSent := 0
  normalSent := 0
  blockingDuration := Time.Duration.zero
  machineStart := now
  allowedBlockedMicrosec := Time.Duration.fromMicros m.allowedBlockedMicrosec
  counterA := 0
  counterB := 0

/-- Sample the limit of the first state, if it has an action. -/
def startLimit (acc : List (MachineRuntime T D) × R) (p : MachineRuntime T D × Machine) :
    Exec (List (MachineRuntime T D) × R) := do
  let state ← p.2.stateAt 0
  match state.action with
  | none => return (acc.1 ++ [p.1], acc.2)
  | some action =>
    let (limit, rng) := action.sampleLimit acc.2
    return (acc.1 ++ [{ p.1 with stateLimit := limit }], rng)

def new (machines : List Machine) (maxPaddingFrac maxBlockingFrac : F64) (now : T) (rng : R) :
    Exec (Except Error (Framework R T D)) := do
  if ¬ isFraction maxPaddingFrac then
    return .error .paddingLimit
  if ¬ isFraction maxBlockingFrac then
    return .error .blockingLimit
  match machines.forM (Machine.validate R) with
  | .error e => return .error e
  | .ok _ =>
    let started := machines.map (startRuntime now)
    let (runtime, rng) ← (started.zip machines).foldlM startLimit ([], rng)
    return .ok {
      currentTime := now, rng := rng
      actions := List.replicate machines.length none
      machines := machines, runtime := runtime
      maxPaddingFrac := maxPaddingFrac, normalSentPackets := 0, paddingSentPackets := 0
      maxBlockingFrac := maxBlockingFrac, blockingDuration := Time.Duration.zero
      blockingStarted := now, blockingActive := false
      signalPending := none, counterZeroedOnce := (false, false)
      frameworkStart := now, log := [] }

def belowLimitBlocking (f : Framework R T D) (rt : MachineRuntime T D) (m : Machine)
    (current : State) : Bool :=
  let replace := match current.action with
    | some (.blockOutgoing _ replace _ _ _) => replace
    | _ => false
  if replace && f.blockingActive then
    -- the state limit is the machine's own, so it still counts
    decide (rt.stateLimit > 0)
  else
    let ongoing := Time.Instant.saturatingDurationSince f.currentTime f.blockingStarted
    let mBlockDur := if f.blockingActive then Time.Duration.add rt.blockingDuration ongoing
      else rt.blockingDuration
    let gBlockDur := if f.blockingActive then Time.Duration.add f.blockingDuration ongoing
      else f.blockingDuration
    if Time.Duration.lt mBlockDur rt.allowedBlockedMicrosec then
      decide (rt.stateLimit > 0)
    else if (Val.fin 0).lt m.maxBlockingFrac.val && m.maxBlockingFrac.val.le
        (Time.Duration.divDurationF64 mBlockDur
          (Time.Instant.saturatingDurationSince f.currentTime rt.machineStart)) then
      false
    else if (Val.fin 0).lt f.maxBlockingFrac.val && f.maxBlockingFrac.val.le
        (Time.Duration.divDurationF64 gBlockDur
          (Time.Instant.saturatingDurationSince f.currentTime f.frameworkStart)) then
      false
    else
      decide (rt.stateLimit > 0)

def belowLimitPadding (f : Framework R T D) (rt : MachineRuntime T D) (m : Machine) : Bool :=
  if rt.paddingSent < m.allowedPaddingPackets then
    decide (rt.stateLimit > 0)
  else
    let total := rt.normalSent + rt.paddingSent
    let machineSet := (Val.fin 0).lt m.maxPaddingFrac.val
    if machineSet && decide (total = 0) then
      true
    else if machineSet && m.maxPaddingFrac.val.le (Val.div rt.paddingSent total) then
      false
    else
      let total := f.paddingSentPackets + f.normalSentPackets
      let globalSet := (Val.fin 0).lt f.maxPaddingFrac.val
      if globalSet && decide (total = 0) then
        true
      else if globalSet && f.maxPaddingFrac.val.le (Val.div f.paddingSentPackets total) then
        false
      else
        decide (rt.stateLimit > 0)

def belowActionLimits (f : Framework R T D) (rt : MachineRuntime T D) (m : Machine) :
    Exec Bool := do
  let current ← m.stateAt rt.currentState
  match current.action with
  | none => return false
  | some (.blockOutgoing ..) => return f.belowLimitBlocking rt m current
  | some (.sendPadding ..) => return f.belowLimitPadding rt m
  | some (.updateTimer ..) => return decide (rt.stateLimit > 0)
  | some (.cancel _) => return true

/-- The action a state asks for, with its times sampled. -/
def triggerAction (mi : Nat) (action : Action) (rng : R) : TriggerAction D × R :=
  match action with
  | .cancel timer => (.cancel mi timer, rng)
  | .sendPadding bypass replace _ _ =>
    let (timeout, rng) := action.sampleTimeout rng
    (.sendPadding (Time.Duration.fromMicros timeout) bypass replace mi, rng)
  | .blockOutgoing bypass replace _ _ _ =>
    let (timeout, rng) := action.sampleTimeout rng
    let (duration, rng) := action.sampleDuration rng
    (.blockOutgoing (Time.Duration.fromMicros timeout) (Time.Duration.fromMicros duration)
      bypass replace mi, rng)
  | .updateTimer replace _ _ =>
    let (duration, rng) := action.sampleDuration rng
    (.updateTimer (Time.Duration.fromMicros duration) replace mi, rng)

def scheduleAction (f : Framework R T D) (mi : Nat) (state : Nat) : Exec (Framework R T D) := do
  let machine ← at? f.machines mi
  let state ← machine.stateAt state
  match state.action with
  | none => f.setAction mi none
  | some action =>
    let (a, rng) := triggerAction mi action f.rng
    setAction { f with rng := rng } mi (some a)

def scheduleIf (f : Framework R T D) (allowed : Bool) (mi state limit : Nat) :
    Exec (Framework R T D) :=
  if allowed then (f.note (.scheduled mi state limit)).scheduleAction mi state else pure f

mutual

def transition (f : Framework R T D) (mi : Nat) (event : Event) :
    Exec (StateChange × Framework R T D) := do
  let f := f.note (.performed mi event)
  let rt ← at? f.runtime mi
  if rt.currentState = stateEnd then
    return (.unchanged, f)
  let machine ← at? f.machines mi
  let state ← machine.stateAt rt.currentState
  let (next, rng) := state.sampleState event f.rng
  let f := { f with rng := rng }
  match next with
  | none => return (.unchanged, f)
  | some next =>
    let f := f.note (.sampled mi next)
    if next = stateEnd then
      return (.changed, f.setRuntime mi { rt with currentState := stateEnd })
    else if next = stateSignal then
      return (.unchanged, { f with signalPending := raiseSignal f.signalPending mi })
    else
      let nextState ← machine.stateAt next
      let f := f.enterState mi rt next nextState
      let entered ← at? f.runtime mi
      let f := f.note (.entered mi next entered.stateLimit)
      let belowLimits ← f.belowActionLimits entered machine
      let ((allowSchedule, stateChanged), f) ← updateCounter f mi
      let f ← f.scheduleIf (allowSchedule && belowLimits) mi next entered.stateLimit
      let after ← at? f.runtime mi
      if rt.currentState = after.currentState ∧ stateChanged = false then
        return (.unchanged, f)
      else
        return (.changed, f)
termination_by 2 * f.zeroBudget + 1
decreasing_by
  simp only [zeroBudget_note, zeroBudget_enterState]
  exact Nat.lt_succ_self _

def updateCounter (f : Framework R T D) (mi : Nat) :
    Exec ((Bool × Bool) × Framework R T D) := do
  let rt ← at? f.runtime mi
  let machine ← at? f.machines mi
  let state ← machine.stateAt rt.currentState
  if _h : (f.applyCounters mi rt state).1 = true then
    let (change, f) ← transition (f.applyCounters mi rt state).2 mi .counterZero
    let action ← at? f.actions mi
    return ((action.isNone, change == .changed), f)
  else
    return ((true, false), (f.applyCounters mi rt state).2)
termination_by 2 * f.zeroBudget
decreasing_by
  have := zeroBudget_applyCounters _h
  omega

end

def decrementLimit (f : Framework R T D) (mi : Nat) : Exec (Framework R T D) := do
  let rt ← at? f.runtime mi
  let rt := { rt with stateLimit := rt.stateLimit - 1 }
  let f := f.setRuntime mi rt
  let machine ← at? f.machines mi
  let state ← machine.stateAt rt.currentState
  match state.action with
  | none => return f
  | some action =>
    if rt.stateLimit = 0 ∧ action.hasLimit = true then
      let f ← f.setAction mi none
      let (_, f) ← f.transition mi .limitReached
      return f
    else
      return f

/-- Perform a step for every machine, in order. -/
def eachMachine (f : Framework R T D) (step : Framework R T D → Nat → Exec (Framework R T D)) :
    Exec (Framework R T D) :=
  (List.range f.runtime.length).foldlM step f

def transitionOnly (event : Event) (f : Framework R T D) (mi : Nat) : Exec (Framework R T D) := do
  let (_, f) ← f.transition mi event
  return f

/-- A transition after which the limit is decremented if the state did not change. -/
def transitionLimited (event : Event) (f : Framework R T D) (mi : Nat) :
    Exec (Framework R T D) := do
  let (change, f) ← f.transition mi event
  let rt ← at? f.runtime mi
  if change = .unchanged ∧ rt.currentState ≠ stateEnd then
    f.decrementLimit mi
  else
    return f

def processEvent (f : Framework R T D) (e : TriggerEvent) : Exec (Framework R T D) :=
  match e with
  | .normalRecv => f.eachMachine (transitionOnly .normalRecv)
  | .paddingRecv => f.eachMachine (transitionOnly .paddingRecv)
  | .tunnelRecv => f.eachMachine (transitionOnly .tunnelRecv)
  | .normalSent =>
    eachMachine { f with normalSentPackets := f.normalSentPackets + 1 } fun f mi => do
      let rt ← at? f.runtime mi
      transitionOnly .normalSent (f.setRuntime mi { rt with normalSent := rt.normalSent + 1 }) mi
  | .paddingSent machine => do
    let f := { f with paddingSentPackets := f.paddingSentPackets + 1 }
    if machine ≥ f.runtime.length then
      return f
    let rt ← at? f.runtime machine
    transitionLimited .paddingSent
      (f.setRuntime machine { rt with paddingSent := rt.paddingSent + 1 }) machine
  | .tunnelSent => f.eachMachine (transitionOnly .tunnelSent)
  | .blockingBegin machine =>
    let f := if f.blockingActive then f
      else { f with blockingActive := true, blockingStarted := f.currentTime }
    f.eachMachine fun f mi =>
      if mi = machine then transitionLimited .blockingBegin f mi
      else transitionOnly .blockingBegin f mi
  | .blockingEnd =>
    let blocked := if f.blockingActive then
        Time.Instant.saturatingDurationSince f.currentTime f.blockingStarted
      else Time.Duration.zero
    let f := if f.blockingActive then
        { f with
          blockingDuration := Time.Duration.add f.blockingDuration blocked
          blockingActive := false }
      else f
    f.eachMachine fun f mi => do
      let rt ← at? f.runtime mi
      let f := if Time.Duration.isZero blocked then f
        else f.setRuntime mi
          { rt with blockingDuration := Time.Duration.add rt.blockingDuration blocked }
      transitionOnly .blockingEnd f mi
  | .timerBegin machine =>
    if machine ≥ f.runtime.length then pure f
    else transitionLimited .timerBegin f machine
  | .timerEnd machine =>
    if machine ≥ f.runtime.length then pure f
    else transitionOnly .timerEnd f machine

/-- Signal all machines but the excluded one. -/
def signalAll (f : Framework R T D) (excluded : Option Nat) : Exec (Framework R T D) :=
  f.eachMachine fun f mi =>
    if excluded = some mi then pure f else transitionOnly .signal f mi

/-- Take the pending signal and deliver it; a signal raised meanwhile reaches only
the machine that was excluded. -/
def deliverSignal (f : Framework R T D) : Exec (Framework R T D) :=
  match f.signalPending with
  | none => pure f
  | some signal => do
    let excluded := match signal with
      | .all => none
      | .allExcept excluded => some excluded
    let f ← signalAll { f with signalPending := none } excluded
    let again := f.signalPending.isSome
    let f := { f with signalPending := none }
    match excluded with
    | some excluded => if again then transitionOnly .signal f excluded else pure f
    | none => pure f

def startCall (f : Framework R T D) (now : T) : Framework R T D :=
  { f with
    actions := f.actions.map fun _ => none
    counterZeroedOnce := (false, false)
    currentTime := now
    log := [] }

def processEvents (f : Framework R T D) (events : List TriggerEvent) : Exec (Framework R T D) :=
  events.foldlM processEvent f

def triggerEvents (f : Framework R T D) (events : List TriggerEvent) (now : T) :
    Exec (List (TriggerAction D) × Framework R T D) := do
  let f ← (f.startCall now).processEvents events
  let f ← f.deliverSignal
  return (f.actions.filterMap id, f)

/-- Several calls, with the actions that each returns. -/
def run (f : Framework R T D) :
    List (List TriggerEvent × T) → Exec (List (List (TriggerAction D)) × Framework R T D)
  | [] => pure ([], f)
  | c :: cs => do
    let (actions, f) ← f.triggerEvents c.1 c.2
    let (rest, f) ← run f cs
    return (actions :: rest, f)

/-- A framework as `new` makes it. -/
def Initial (f : Framework R T D) : Prop :=
  ∃ machines padding blocking now rng,
    Framework.new machines padding blocking now rng = .ok (.ok f)

/-- A call of `triggerEvents` that `good` admits. -/
def Call (good : Framework R T D → List TriggerEvent → T → Prop) (f f' : Framework R T D) :
    Prop :=
  ∃ events now actions, good f events now ∧ f.triggerEvents events now = .ok (actions, f')

/-- The frameworks that runs of admitted calls come to. -/
abbrev ReachableBy (good : Framework R T D → List TriggerEvent → T → Prop) :
    Framework R T D → Prop :=
  Reach Initial (Call good)

/-- The frameworks that runs of any calls come to. -/
abbrev Reachable : Framework R T D → Prop := ReachableBy fun _ _ _ => True

theorem run_reachable {cs : List (List TriggerEvent × T)} {f f' : Framework R T D}
    {actions : List (List (TriggerAction D))} (hf : Reachable f)
    (h : f.run cs = .ok (actions, f')) : Reachable f' := by
  induction cs generalizing f actions with
  | nil =>
    obtain ⟨_, rfl⟩ : _ ∧ f = f' := by simpa [run] using h
    exact hf
  | cons c cs ih =>
    simp only [run, bind_ok] at h
    obtain ⟨⟨a, g⟩, hc, ⟨rest, g'⟩, hr, h⟩ := h
    obtain ⟨_, rfl⟩ : _ ∧ g' = f' := by simpa using h
    exact ih (.next hf ⟨c.1, c.2, a, trivial, hc⟩) hr

/-- What machines come to in some calls, without limits of the framework and draws. -/
def play (machines : List Machine) (calls : List (List TriggerEvent × Instant)) :
    Option (Framework Unit Instant Duration) :=
  match Framework.new machines ⟨0⟩ ⟨0⟩ (0 : Instant) () with
  | .ok (.ok f) => (f.run calls).toOption.map (·.2)
  | _ => none

theorem play_initial {machines : List Machine} {f : Framework Unit Instant Duration}
    (h : play machines [] = some f) : Initial f := by
  unfold play at h
  split at h
  · rename_i f0 hnew
    obtain rfl : f0 = f := by simpa [run, pure, Except.pure, Except.toOption] using h
    exact ⟨_, _, _, _, _, hnew⟩
  · exact absurd h (by simp)

theorem play_reachable {machines : List Machine} {calls : List (List TriggerEvent × Instant)}
    {f : Framework Unit Instant Duration} (h : play machines calls = some f) : Reachable f := by
  unfold play at h
  split at h
  · rename_i f0 hnew
    have hstart : Reachable f0 := .start ⟨_, _, _, _, _, hnew⟩
    cases hr : f0.run calls with
    | error e => simp [hr, Except.toOption] at h
    | ok r =>
      obtain rfl : r.2 = f := by simpa [hr, Except.toOption] using h
      exact run_reachable hstart hr
  · exact absurd h (by simp)

end Framework

end Maybenot

import Maybenot.Dist

namespace Maybenot
open Lib

/-- The number of events in the framework. -/
abbrev eventNum : Nat := 13

/-- The pseudo-state of a machine that has stopped: `u32::MAX`. -/
def stateEnd : Nat := 2 ^ 32 - 1

/-- The pseudo-state that signals the other machines. -/
def stateSignal : Nat := stateEnd - 1

def stateMax : Nat := stateSignal - 1

def u64Max : Nat := 2 ^ 64 - 1

def stateLimitMax : Nat := u64Max

/-- A day in microseconds. -/
def maxSampledTimeout : F64 := Flt.ofRat (24 * 60 * 60 * 1000 * 1000)
def maxSampledTimerDuration : F64 := Flt.ofRat (24 * 60 * 60 * 1000 * 1000)
def maxSampledBlockDuration : F64 := Flt.ofRat (24 * 60 * 60 * 1000 * 1000)

abbrev MachineId := Nat

inductive Event where
  | normalRecv | paddingRecv | tunnelRecv
  | normalSent | paddingSent | tunnelSent
  | blockingBegin | blockingEnd
  | limitReached | counterZero
  | timerBegin | timerEnd
  | signal
deriving DecidableEq

def Event.toUsize : Event → Fin eventNum
  | .normalRecv => 0 | .paddingRecv => 1 | .tunnelRecv => 2
  | .normalSent => 3 | .paddingSent => 4 | .tunnelSent => 5
  | .blockingBegin => 6 | .blockingEnd => 7
  | .limitReached => 8 | .counterZero => 9
  | .timerBegin => 10 | .timerEnd => 11
  | .signal => 12

inductive TriggerEvent where
  | normalRecv | paddingRecv | tunnelRecv
  | normalSent
  | paddingSent (machine : MachineId)
  | tunnelSent
  | blockingBegin (machine : MachineId)
  | blockingEnd
  | timerBegin (machine : MachineId)
  | timerEnd (machine : MachineId)
deriving DecidableEq

def TriggerEvent.isEvent (t : TriggerEvent) (e : Event) : Bool :=
  match t with
  | .normalRecv => e == .normalRecv
  | .paddingRecv => e == .paddingRecv
  | .normalSent => e == .normalSent
  | .paddingSent _ => e == .paddingSent
  | .blockingBegin _ => e == .blockingBegin
  | .blockingEnd => e == .blockingEnd
  | .timerBegin _ => e == .timerBegin
  | .timerEnd _ => e == .timerEnd
  | .tunnelSent => e == .tunnelSent
  | .tunnelRecv => e == .tunnelRecv

inductive Timer where
  | action | internal | all
deriving DecidableEq

inductive Action where
  | cancel (timer : Timer)
  | sendPadding (bypass replace : Bool) (timeout : Dist) (limit : Option Dist)
  | blockOutgoing (bypass replace : Bool) (timeout duration : Dist) (limit : Option Dist)
  | updateTimer (replace : Bool) (duration : Dist) (limit : Option Dist)
deriving DecidableEq

/-- A sample, capped and rounded to whole microseconds. -/
def sampleCapped {R : Type} [RngCore R] (d : Dist) (cap : F64) (rng : R) : Nat × R :=
  let (x, rng) := d.sample rng
  ((x.min cap).val.roundToU64, rng)

namespace Action

variable {R : Type} [RngCore R]

def sampleTimeout (a : Action) (rng : R) : Nat × R :=
  match a with
  | .sendPadding _ _ timeout _ | .blockOutgoing _ _ timeout _ _ =>
    sampleCapped timeout maxSampledTimeout rng
  | _ => (0, rng)

def sampleDuration (a : Action) (rng : R) : Nat × R :=
  match a with
  | .blockOutgoing _ _ _ duration _ => sampleCapped duration maxSampledBlockDuration rng
  | .updateTimer _ duration _ => sampleCapped duration maxSampledTimerDuration rng
  | _ => (0, rng)

def limit : Action → Option Dist
  | .sendPadding _ _ _ limit | .blockOutgoing _ _ _ _ limit | .updateTimer _ _ limit => limit
  | .cancel _ => none

def sampleLimit (a : Action) (rng : R) : Nat × R :=
  match a.limit with
  | none => (stateLimitMax, rng)
  | some limit =>
    let (x, rng) := limit.sample rng
    (x.val.roundToU64, rng)

def hasLimit (a : Action) : Bool := a.limit.isSome

def validate (R : Type) [RngCore R] (a : Action) : Except Error Unit := do
  match a with
  | .sendPadding _ _ timeout limit =>
    timeout.validate R
    if let some limit := limit then limit.validate R
  | .blockOutgoing _ _ timeout duration limit =>
    timeout.validate R
    duration.validate R
    if let some limit := limit then limit.validate R
  | .updateTimer _ duration limit =>
    duration.validate R
    if let some limit := limit then limit.validate R
  | .cancel _ => pure ()

end Action

inductive Operation where
  | increment | decrement | set
deriving DecidableEq

/-- The saturating `u64` arithmetic of a counter update. -/
def Operation.apply (op : Operation) (value change : Nat) : Nat :=
  match op with
  | .increment => min (value + change) u64Max
  | .decrement => value - change
  | .set => change

structure Counter where
  operation : Operation
  dist : Option Dist
  copy : Bool
deriving DecidableEq

namespace Counter

def sampleValue {R : Type} [RngCore R] (c : Counter) (rng : R) : Nat × R :=
  match c.dist with
  | none => (1, rng)
  | some dist =>
    let (x, rng) := dist.sample rng
    (x.val.toU64, rng)

def validate (R : Type) [RngCore R] (c : Counter) : Except Error Unit := do
  if let some dist := c.dist then dist.validate R

end Counter

/-- A state index and the probability to go there. -/
structure Trans where
  state : Nat
  prob : F32
deriving DecidableEq

structure State where
  action : Option Action
  counter : Option Counter × Option Counter
  transitions : Vector (Option (List Trans)) eventNum
deriving DecidableEq

namespace State

/-- A state without action and counters; an event without targets has no transitions. -/
def new (t : Event → List Trans) : State where
  action := none
  counter := (none, none)
  transitions := #v[.normalRecv, .paddingRecv, .tunnelRecv, .normalSent, .paddingSent, .tunnelSent,
      .blockingBegin, .blockingEnd, .limitReached, .counterZero, .timerBegin, .timerEnd,
      .signal].map (fun e => if (t e).isEmpty then none else some (t e))

/-- The checks of one target: the sum so far and the targets seen go along. -/
def validateTrans (numStates : Nat) (acc : F32 × List Nat) (t : Trans) :
    Except Error (F32 × List Nat) := do
  if t.state ≥ numStates ∧ t.state ≠ stateEnd ∧ t.state ≠ stateSignal then
    fail "found out-of-bounds state index %" [.usize t.state]
  if acc.2.contains t.state then
    fail "found duplicate state index %" [.usize t.state]
  if t.prob.val.le (.fin 0) || (Val.fin 1).lt t.prob.val then
    fail "found probability %, has to be (0.0, 1.0]" [.f32 t.prob]
  return (acc.1.add t.prob, t.state :: acc.2)

/-- The emptiness test asks the array of all events, as the source does. -/
def validateEvent (s : State) (numStates : Nat) (event : Option (List Trans) × Nat) :
    Except Error Unit :=
  match event.1 with
  | none => pure ()
  | some transitions => do
    if s.transitions.toList.isEmpty then
      fail "found empty transition vector for %" [.usize event.2]
    let (sum, _) ← transitions.foldlM (validateTrans numStates) (Flt.ofRat 0, [])
    if sum.val.le (.fin 0) || (Val.fin 1).lt sum.val then
      fail "found invalid total probability vector % for %, must be (0.0, 1.0]"
        [.f32 sum, .usize event.2]

def validate (R : Type) [RngCore R] (s : State) (numStates : Nat) : Except Error Unit := do
  s.transitions.toList.zipIdx.forM (s.validateEvent numStates)
  if let some action := s.action then action.validate R
  if let some counter := s.counter.1 then counter.validate R
  if let some counter := s.counter.2 then counter.validate R

/-- The first target at which the running sum passes the draw. -/
def firstAbove (r : Rat) (sum : F32) : List Trans → Option Nat
  | [] => none
  | t :: ts =>
    let sum := sum.add t.prob
    if (Val.fin r).lt sum.val then some t.state else firstAbove r sum ts

def sampleState {R : Type} [RngCore R] (s : State) (event : Event) (rng : R) : Option Nat × R :=
  match s.transitions[event.toUsize] with
  | none => (none, rng)
  | some vector =>
    let (r, rng) := RngCore.genUnit rng
    (firstAbove r (Flt.ofRat 0) vector, rng)

end State

structure Machine where
  allowedPaddingPackets : Nat
  maxPaddingFrac : F64
  allowedBlockedMicrosec : Nat
  maxBlockingFrac : F64
  states : List State
deriving DecidableEq

namespace Machine

/-- An ordered comparison with NaN is false, so NaN passes both range checks. -/
def validate (R : Type) [RngCore R] (m : Machine) : Except Error Unit := do
  if m.maxPaddingFrac.val.lt (.fin 0) || (Val.fin 1).lt m.maxPaddingFrac.val then
    fail "max_padding_frac has to be [0.0, 1.0], got %" [.f64 m.maxPaddingFrac]
  if m.maxBlockingFrac.val.lt (.fin 0) || (Val.fin 1).lt m.maxBlockingFrac.val then
    fail "max_blocking_frac has to be [0.0, 1.0], got %" [.f64 m.maxBlockingFrac]
  let numStates := m.states.length
  if numStates = 0 then
    fail "a machine must have at least one state"
  if numStates > stateMax then
    fail "too many states, max is %, found %" [.usize stateMax, .usize numStates]
  m.states.forM fun state =>
    match state.validate R numStates with
    | .ok _ => .ok ()
    | .error e => .error (.machine e.display)

def new (R : Type) [RngCore R] (allowedPaddingPackets : Nat) (maxPaddingFrac : F64)
    (allowedBlockedMicrosec : Nat) (maxBlockingFrac : F64) (states : List State) :
    Except Error Machine := do
  let machine : Machine :=
    { allowedPaddingPackets, maxPaddingFrac, allowedBlockedMicrosec, maxBlockingFrac, states }
  machine.validate R
  return machine

/-- A machine without limits and budgets. -/
def free (states : List State) : Machine := ⟨0, ⟨0⟩, 0, ⟨0⟩, states⟩

end Machine

/-- The certain move to a state. -/
def certain (state : Nat) : List Trans := [⟨state, Flt.ofRat 1⟩]

end Maybenot

import Maybenot.Framework
import Maybenot.Serialize
import Maybenot.Sim.Parse

namespace Maybenot
open Lib

inductive MaybenotEventType where
  | normalRecv | paddingRecv | tunnelRecv
  | normalSent | paddingSent | tunnelSent
  | blockingBegin | blockingEnd
  | timerBegin | timerEnd
deriving DecidableEq

structure MaybenotEvent where
  eventType : MaybenotEventType
  machine : Nat
deriving DecidableEq

/-- Whole seconds, and a fraction of a second in nanoseconds. -/
structure MaybenotDuration where
  secs : Nat
  nanos : Nat
deriving DecidableEq

inductive MaybenotTimer where
  | action | internal | all
deriving DecidableEq

inductive MaybenotAction where
  | cancel (machine : Nat) (timer : MaybenotTimer)
  | sendPadding (machine : Nat) (timeout : MaybenotDuration) (replace bypass : Bool)
  | blockOutgoing (machine : Nat) (timeout : MaybenotDuration) (replace bypass : Bool)
      (duration : MaybenotDuration)
  | updateTimer (machine : Nat) (duration : MaybenotDuration) (replace : Bool)
deriving DecidableEq

inductive MaybenotResult where
  | ok | machineStringNotUtf8 | invalidMachineString | startFramework | nullPointer
deriving DecidableEq

def convertDuration (d : Duration) : MaybenotDuration := ⟨d / 1000000000, d % 1000000000⟩

def convertTimer : Timer → MaybenotTimer
  | .action => .action
  | .internal => .internal
  | .all => .all

def convertAction : TriggerAction Duration → MaybenotAction
  | .cancel machine timer => .cancel machine (convertTimer timer)
  | .sendPadding timeout bypass replace machine =>
    .sendPadding machine (convertDuration timeout) replace bypass
  | .blockOutgoing timeout duration bypass replace machine =>
    .blockOutgoing machine (convertDuration timeout) replace bypass (convertDuration duration)
  | .updateTimer duration replace machine => .updateTimer machine (convertDuration duration) replace

def convertEvent (event : MaybenotEvent) : TriggerEvent :=
  match event.eventType with
  | .normalRecv => .normalRecv
  | .paddingRecv => .paddingRecv
  | .tunnelRecv => .tunnelRecv
  | .normalSent => .normalSent
  | .paddingSent => .paddingSent event.machine
  | .tunnelSent => .tunnelSent
  | .blockingBegin => .blockingBegin event.machine
  | .blockingEnd => .blockingEnd
  | .timerBegin => .timerBegin event.machine
  | .timerEnd => .timerEnd event.machine

/-- Write actions to the places of a buffer as long as there are both, and count them. -/
def writeActions : List MaybenotAction → List (Option MaybenotAction) →
    Nat × List (Option MaybenotAction)
  | action :: actions, _ :: outs =>
    let (count, outs) := writeActions actions outs
    (count + 1, some action :: outs)
  | _, outs => (0, outs)

/-- A running instance. -/
structure MaybenotFramework (R : Type) where
  framework : Framework R Instant Duration
  eventsBuf : List TriggerEvent

namespace MaybenotFramework

variable {R : Type} [RngCore R]

def start (lib : Codecs) (machinesStr : List Char) (maxPaddingFrac maxBlockingFrac : F64)
    (now : Instant) (rng : R) : Exec (Except MaybenotResult (MaybenotFramework R)) := do
  match (lines machinesStr).mapM (Machine.fromStr R lib) with
  | .error _ => return .error .invalidMachineString
  | .ok machines =>
    match ← Framework.new machines maxPaddingFrac maxBlockingFrac now rng with
    | .error _ => return .error .startFramework
    | .ok framework => return .ok ⟨framework, []⟩

/-- The events of a call, and a buffer for its actions that has not been written. -/
def onEvents (this : MaybenotFramework R) (now : Instant) (events : List MaybenotEvent)
    (actions : List (Option MaybenotAction)) :
    Exec ((Nat × List (Option MaybenotAction)) × MaybenotFramework R) := do
  let eventsBuf := events.map convertEvent
  let (triggered, framework) ← this.framework.triggerEvents eventsBuf now
  return (writeActions (triggered.map convertAction) actions, ⟨framework, eventsBuf⟩)

end MaybenotFramework

/-- What the caller lets be written, nothing where it gives a null pointer. -/
structure Output where
  actionsOut : Option (List (Option MaybenotAction))
  numActionsOut : Option (Option Nat)
deriving DecidableEq

section Extern

variable {R : Type} [RngCore R]

/-- The text of a C string: its bytes up to the null, if they are UTF-8. -/
def cStrText (bytes : List UInt8) : Option (List Char) :=
  (String.fromUTF8? (bytes.takeWhile (· ≠ 0)).toByteArray).map (·.toList)

/-- The instance is written to where `out` points to, if that is not null. -/
def maybenotStart (lib : Codecs) (machinesStr : List UInt8) (maxPaddingFrac maxBlockingFrac : F64)
    (out : Option (Option (MaybenotFramework R))) (now : Instant) (rng : R) :
    Exec (MaybenotResult × Option (Option (MaybenotFramework R))) :=
  match out with
  | none => return (.nullPointer, none)
  | some old =>
    match cStrText machinesStr with
    | none => return (.machineStringNotUtf8, some old)
    | some machinesStr => do
      match ← MaybenotFramework.start lib machinesStr maxPaddingFrac maxBlockingFrac now rng with
      | .error e => return (e, some old)
      | .ok framework => return (.ok, some (some framework))

def maybenotNumMachines (this : Option (MaybenotFramework R)) : Nat :=
  match this with
  | none => 0
  | some this => this.framework.machines.length

/-- The buffer for the actions is as many of its entries as there are machines. -/
def maybenotOnEvents (this : Option (MaybenotFramework R)) (now : Instant)
    (events : Option (List MaybenotEvent)) (out : Output) :
    Exec (MaybenotResult × Output × Option (MaybenotFramework R)) :=
  match this, events, out.actionsOut, out.numActionsOut with
  | some this, some events, some actionsOut, some _ => do
    let numMachines := this.framework.machines.length
    let ((numActions, actions), this) ← this.onEvents now events (actionsOut.take numMachines)
    return (.ok, ⟨some (actions ++ actionsOut.drop numMachines), some (some numActions)⟩, some this)
  | this, _, _, _ => return (.nullPointer, out, this)

end Extern

end Maybenot

import Maybenot.Sim.Network

namespace Maybenot
open Lib

/-- The delays of an integration, each drawn from a source of randomness of its own. Every draw
comes to a delay: a `BinDist` whose `sample` panics is no integration here. -/
structure Integration (G : Type) where
  actionDelay : G → Duration × G
  reportingDelay : G → Duration × G
  triggerDelay : G → Duration × G

structure ScheduledAction where
  action : TriggerAction Duration
  time : Instant
deriving DecidableEq

/-- The state of the client or the server. -/
structure SimState (R G : Type) where
  framework : Framework R Instant Duration
  scheduledAction : List (Option ScheduledAction)
  scheduledInternalTimer : List (Option Instant)
  blockingUntil : Option Instant
  blockingBypassable : Bool
  integration : Option (Integration G)

namespace SimState

variable {R G : Type}

def new [RngCore R] (machines : List Machine) (currentTime : Instant)
    (maxPaddingFrac maxBlockingFrac : F64) (integration : Option (Integration G)) (rng : R) :
    Exec (SimState R G) := do
  match ← Framework.new machines maxPaddingFrac maxBlockingFrac currentTime rng with
  | .error _ => .error .unwrapError
  | .ok framework => return {
      framework := framework
      scheduledAction := List.replicate machines.length none
      scheduledInternalTimer := List.replicate machines.length none
      blockingUntil := none
      blockingBypassable := false
      integration := integration }

def drawDelay (s : SimState R G) (delay : Integration G → G → Duration × G) (g : G) :
    Duration × G :=
  match s.integration with
  | some i => delay i g
  | none => (0, g)

def reportingDelay (s : SimState R G) (g : G) : Duration × G := s.drawDelay (·.reportingDelay) g

def actionDelay (s : SimState R G) (g : G) : Duration × G := s.drawDelay (·.actionDelay) g

def triggerDelay (s : SimState R G) (g : G) : Duration × G := s.drawDelay (·.triggerDelay) g

/-- The blocking that is in force after a `BlockOutgoing` fires at `time`. -/
def block (s : SimState R G) (time block : Instant) (bypass replace : Bool) :
    SimState R G :=
  if replace ∨ block > s.blockingUntil.getD time then
    { s with blockingUntil := some block, blockingBypassable := bypass }
  else s

end SimState

section Peek

variable {R G : Type}

/-- One side of the search for the earliest event when blocking holds events back. -/
def peekQueueEarliestSide (sq : SimQueue) (blockingUntil : Option Instant)
    (blockingBypassable : Bool) (currentTime : Instant) (networkDelaySum : Duration)
    (isClient : Bool) : Wait × Queue × Bool :=
  let b := peekBlocking (sq.side isClient) blockingBypassable
  let n := peekNonBlocking (sq.side isClient) blockingBypassable networkDelaySum
  let blockingUntil := blockingUntil.getD currentTime
  let nonBlockingTime (e : SimEvent) : Instant :=
    if n.2 = .base then e.time + networkDelaySum else e.time
  match b.1, n.1 with
  | none, none => (⊤, .blocking, isClient)
  | none, some e => (Instant.durationSince (nonBlockingTime e) currentTime, n.2, isClient)
  | some h, none => (Instant.durationSince (max h.time blockingUntil) currentTime, b.2, isClient)
  | some h, some e =>
    let blockingTime := max h.time blockingUntil
    -- on equal times the base queue comes first, but not the internal one
    if blockingTime < nonBlockingTime e ∨ blockingTime = nonBlockingTime e ∧ n.2 ≠ .base then
      (Instant.durationSince blockingTime currentTime, b.2, isClient)
    else (Instant.durationSince (nonBlockingTime e) currentTime, n.2, isClient)

/-- The time to wait for the next event of the queue, where to find it and whether it is
the client's; events after `earliest` do not matter. -/
def peekQueue (sq : SimQueue) (client server : SimState R G)
    (clientNetworkDelaySum serverNetworkDelaySum : Duration) (earliest : Wait)
    (currentTime : Instant) : Exec (Wait × Queue × Bool) :=
  if sq.isEmpty then return (⊤, .blocking, false)
  else do
    let (first, queue, durationSince) ←
      sq.peek clientNetworkDelaySum serverNetworkDelaySum currentTime
    let peek ← unwrap first
    let clientBlocking := client.blockingUntil.isSome
    let serverBlocking := server.blockingUntil.isSome
    if (durationSince : Wait) > earliest then return (⊤, .blocking, false)
    else if peek.event ≠ .tunnelSent then return (durationSince, queue, peek.client)
    else if !clientBlocking && !serverBlocking then return (durationSince, queue, peek.client)
    else if peek.client && !clientBlocking || !peek.client && !serverBlocking then
      return (durationSince, queue, peek.client)
    else if peek.client && clientBlocking && client.blockingBypassable && peek.bypass ||
        !peek.client && serverBlocking && server.blockingBypassable && peek.bypass then
      return (durationSince, queue, peek.client)
    else
      let c := peekQueueEarliestSide sq client.blockingUntil client.blockingBypassable currentTime
        clientNetworkDelaySum true
      let s := peekQueueEarliestSide sq server.blockingUntil server.blockingBypassable currentTime
        serverNetworkDelaySum false
      return if c.1 ≤ s.1 then c else s

/-- The time to wait for the earliest of some points in time that are not past. -/
def peekEarliest (times : List Instant) (currentTime : Instant) (earliest : Wait) : Wait :=
  times.foldl (fun earliest t =>
    if t ≥ currentTime ∧ (Instant.durationSince t currentTime : Duration) < earliest then
      (Instant.durationSince t currentTime : Duration)
    else earliest) earliest

def peekScheduledAction (scheduledC scheduledS : List (Option ScheduledAction))
    (currentTime : Instant) : Wait :=
  peekEarliest (scheduledS.reduceOption.map (·.time)) currentTime
    (peekEarliest (scheduledC.reduceOption.map (·.time)) currentTime ⊤)

def peekScheduledInternalTimer (internalC internalS : List (Option Instant))
    (currentTime : Instant) : Wait :=
  peekEarliest internalS.reduceOption currentTime
    (peekEarliest internalC.reduceOption currentTime ⊤)

def peekBlockedExp (blockingC blockingS : Option Instant) (currentTime : Instant) : Wait × Bool :=
  match blockingC, blockingS with
  | some c, some s =>
    if c < s then (Instant.durationSince c currentTime, true)
    else (Instant.durationSince s currentTime, false)
  | some c, none => (Instant.durationSince c currentTime, true)
  | none, some s => (Instant.durationSince s currentTime, false)
  | none, none => (⊤, true)

end Peek

end Maybenot

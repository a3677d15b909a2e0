import Maybenot.Sim.State

namespace Maybenot
open Lib

/-- A record of what the simulator did. No function of the simulator reads it. -/
inductive SimStep where
  /-- A `BlockOutgoing` fired at `time`, for a blocking that ends at `block`. -/
  | blocked (client : Bool) (time block : Instant) (bypass replace : Bool)
  | expired (client : Bool) (blockingUntil : Instant)
  /-- An event was picked as the next one; before it was moved forward it was `queued`. -/
  | picked (queued next : SimEvent)
  /-- Padding was replaced with a normal packet that was queued. -/
  | replaced (client : Bool)
  | processed (next : SimEvent)
deriving DecidableEq

/-- All that a run of the simulator changes. -/
structure Sim (R G : Type) where
  sq : SimQueue
  client : SimState R G
  server : SimState R G
  network : NetworkBottleneck
  currentTime : Instant
  /-- The source of randomness of the integrations. -/
  rng : G
  trace : List SimEvent
  simIterations : Nat
  log : List SimStep

/-- The event moved forward in time, if it was earlier. -/
def SimEvent.forward (e : SimEvent) (t : Instant) : SimEvent :=
  if t > e.time then { e with time := t } else e

inductive Pick where
  | again
  | found (next : Option SimEvent)
deriving DecidableEq

namespace Sim

variable {R G : Type}

def side (w : Sim R G) (isClient : Bool) : SimState R G := if isClient then w.client else w.server

def setSide (w : Sim R G) (isClient : Bool) (s : SimState R G) : Sim R G :=
  if isClient then { w with client := s } else { w with server := s }

def note (w : Sim R G) (s : SimStep) : Sim R G := { w with log := w.log ++ [s] }

def pushSim (w : Sim R G) (e : SimEvent) : Sim R G := { w with sq := w.sq.pushSim e }

section Pick

def actionWait (w : Sim R G) : Wait :=
  peekScheduledAction w.client.scheduledAction w.server.scheduledAction w.currentTime

def timerWait (w : Sim R G) : Wait :=
  peekScheduledInternalTimer w.client.scheduledInternalTimer w.server.scheduledInternalTimer
    w.currentTime

def expiryWait (w : Sim R G) : Wait × Bool :=
  peekBlockedExp w.client.blockingUntil w.server.blockingUntil w.currentTime

def delayWait (w : Sim R G) : Wait := w.network.peekAggregateDelay w.currentTime

/-- How long to wait for the earliest of all that is not in the queue. -/
def otherWait (w : Sim R G) : Wait :=
  min (min (min w.actionWait w.timerWait) w.expiryWait.1) w.delayWait

def queueWait (w : Sim R G) : Exec (Wait × Queue × Bool) :=
  peekQueue w.sq w.client w.server w.network.clientAggregateBaseDelay
    w.network.serverAggregateBaseDelay w.otherWait w.currentTime

/-- The delay that the end of a blocking adds to the base events, if it held packets. -/
def expiryDelay (w : Sim R G) (isClient : Bool) (timeOfExpiry : Instant) : NetworkBottleneck :=
  match (peekBlocking (w.sq.side isClient) false).1 with
  | none => w.network
  | some event =>
    if event.time < timeOfExpiry then
      match aggDelayOnBlockingExpire w.sq isClient timeOfExpiry event
          (w.network.aggregateBaseDelay isClient) with
      | some blockedDuration => w.network.pushAggregateDelay blockedDuration timeOfExpiry isClient
      | none => w.network
    else w.network

/-- The blocking of a side expires in `b`. -/
def expire (w : Sim R G) (b : Duration) (isClient : Bool) : Pick × Sim R G :=
  let s := w.side isClient
  let (delay, rng) := s.reportingDelay w.rng
  let timeOfExpiry := w.currentTime + b
  let w := { w.setSide isClient { s with blockingUntil := none } with
    rng := rng, network := w.expiryDelay isClient timeOfExpiry }
  let w := w.note (.expired isClient timeOfExpiry)
  let e : SimEvent := {
    client := isClient, event := .blockingEnd, time := timeOfExpiry + delay
    integrationDelay := delay, bypass := false, replace := false, containsPadding := false }
  if delay > 0 then (.again, w.pushSim e) else (.found (some e), w.note (.picked e e))

/-- The first entry that is set and passes the test, with its index, and the list
without it. -/
def takeFirst (p : α → Bool) : List (Option α) → Option (Nat × α × List (Option α))
  | [] => none
  | some a :: xs =>
    if p a then some (0, a, none :: xs)
    else (takeFirst p xs).map fun (i, b, ys) => (i + 1, b, some a :: ys)
  | none :: xs => (takeFirst p xs).map fun (i, b, ys) => (i + 1, b, none :: ys)

/-- Take the first entry for `target`, of the client if it has one. -/
def takeDue (time : α → Instant) (target : Instant) (client server : List (Option α)) :
    Option (Bool × Nat × α × List (Option α)) :=
  match takeFirst (fun a => time a == target) client with
  | some r => some (true, r)
  | none => (takeFirst (fun a => time a == target) server).map fun r => (false, r)

def doInternalTimer (w : Sim R G) (target : Instant) : Exec (SimEvent × Sim R G) :=
  match takeDue id target w.client.scheduledInternalTimer w.server.scheduledInternalTimer with
  | none => .error .noInternalAction
  | some (isClient, machine, _, timers) =>
    return ({
      client := isClient, event := .timerEnd machine, time := target, integrationDelay := 0
      bypass := false, replace := false, containsPadding := false },
      w.setSide isClient { w.side isClient with scheduledInternalTimer := timers })

def doScheduledAction (w : Sim R G) (target : Instant) : Exec (SimEvent × Sim R G) :=
  match takeDue (·.time) target w.client.scheduledAction w.server.scheduledAction with
  | none => .error .noAction
  | some (isClient, _, a, actions) =>
    let s := { w.side isClient with scheduledAction := actions }
    match a.action with
    | .cancel .. => .error .cancelScheduled
    | .updateTimer .. => .error .updateTimerScheduled
    | .sendPadding _ bypass replace machine =>
      let (actionDelay, rng) := s.actionDelay w.rng
      return ({
        event := .paddingSent machine, time := a.time, integrationDelay := actionDelay
        client := isClient, bypass := bypass, replace := replace, containsPadding := true },
        { w.setSide isClient s with rng := rng })
    | .blockOutgoing _ duration bypass replace machine =>
      let (actionDelay, rng) := s.actionDelay w.rng
      let (reportingDelay, rng) := s.reportingDelay rng
      let totalDelay := actionDelay + reportingDelay
      let s := s.block a.time (a.time + duration) bypass replace
      return ({
        event := .blockingBegin machine, time := a.time + totalDelay
        integrationDelay := totalDelay, client := isClient, bypass := s.blockingBypassable
        replace := false, containsPadding := false },
        ({ w.setSide isClient s with rng := rng }).note
          (.blocked isClient a.time (a.time + duration) bypass replace))

/-- Pop the event that the queue was asked for and move it forward in time if blocking
held it back. -/
def popQueue (w : Sim R G) (q : Duration) (qid : Queue) (isClient : Bool) :
    Exec (Pick × Sim R G) := do
  let (e, sq) ← w.sq.pop qid isClient (w.network.aggregateBaseDelay isClient)
  let queued ← unwrap e
  let next := queued.forward (w.currentTime + q)
  return (.found (some next), ({ w with sq := sq }).note (.picked queued next))

/-- One round of `pick_next`: what happens next is found and done, and either it is the
next event or another round is needed. -/
def pickStep (w : Sim R G) : Exec (Pick × Sim R G) := do
  let s := w.actionWait
  let i := w.timerWait
  let (b, bIsClient) := w.expiryWait
  let n := w.delayWait
  let (q, qid, qIsClient) ← w.queueWait
  if s = ⊤ ∧ i = ⊤ ∧ b = ⊤ ∧ n = ⊤ ∧ q = ⊤ then
    return (.found none, w)
  -- the aggregate delay comes first, it may lead to further delays of queued events
  else if n ≤ s ∧ n ≤ i ∧ n ≤ b ∧ n ≤ q then
    return (.again, { w with network := w.network.popAggregateDelay })
  else if b ≤ s ∧ b ≤ i ∧ b ≤ q then
    return w.expire (b.untopD 0) bIsClient
  else if q ≤ s ∧ q ≤ i then
    w.popQueue (q.untopD 0) qid qIsClient
  else if i ≤ s then
    let (e, w) ← w.doInternalTimer (w.currentTime + i.untopD 0)
    return (.again, w.pushSim e)
  else
    let (e, w) ← w.doScheduledAction (w.currentTime + s.untopD 0)
    return (.again, w.pushSim e)

/-- A round of the recursion of `pick_next`: another one in the state it leaves, or the end. -/
def round (w : Sim R G) : Sim R G ⊕ Exec (Option SimEvent × Sim R G) :=
  match w.pickStep with
  | .error fault => .inr (.error fault)
  | .ok (.again, w) => .inl w
  | .ok (.found next, w) => .inr (.ok (next, w))

/-- The next event, if it is found in so many rounds. -/
def pickNext (rounds : Nat) (w : Sim R G) : Option (Exec (Option SimEvent × Sim R G)) :=
  Lib.rounds round rounds w

end Pick

end Sim

end Maybenot

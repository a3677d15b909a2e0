import Maybenot.Sim.Queue

namespace Maybenot
open Lib

/-- Whether `t` is at most `window` after `start`, or before it. -/
def within (window : Duration) (start t : Instant) : Bool :=
  decide (Instant.durationSince t start ≤ window)

section Delay

/-- The last time of a buffered packet within the window of the head's. -/
def burstTail (events : List SimEvent) (window : Duration) (head : Instant) : Instant :=
  events.foldl (fun tail e => if within window head e.time && decide (e.time > tail) then e.time
    else tail) head

/-- The delay, if any, that packets held until the expiry add to the base events. -/
def aggDelayOnBlockingExpire (sq : SimQueue) (isClient : Bool) (expireTime : Instant)
    (blockingHead : SimEvent) (aggregateBaseDelay : Duration) : Option Duration :=
  let baseWindow := Duration.fromMillis 1
  let bufferWindow := Duration.fromMillis 1
  let q := sq.side isClient
  let tail := if q.blocking.len + q.bypassable.len > 2 then
      burstTail (q.blocking.iter ++ q.bypassable.iter) bufferWindow blockingHead.time
    else blockingHead.time
  if expireTime = tail then none
  else
    match q.base.peek with
    | some base =>
      if within baseWindow blockingHead.time (base.time + aggregateBaseDelay) then none
      else some (Instant.durationSince expireTime tail)
    | none => some (Instant.durationSince expireTime tail)

/-- The delay, if any, that a packet sent in the place of padding adds to the base events. -/
def aggDelayOnPaddingBypassReplace (sq : SimQueue) (isClient : Bool) (currentTime : Instant)
    (blockingHead : SimEvent) (aggregateBaseDelay : Duration) : Option Duration :=
  let adjacentWindow := Duration.fromMillis 100
  let baseWindow := Duration.fromMillis 1
  let q := sq.side isClient
  if (q.blocking.iter ++ q.bypassable.iter).any
      (fun e => within adjacentWindow blockingHead.time e.time) then none
  else if q.base.peek.any
      (fun base => within baseWindow blockingHead.time (base.time + aggregateBaseDelay)) then none
  else some (Instant.durationSince currentTime blockingHead.time)

/-- Whether a packet delayed by the bottleneck delays the base events as well. -/
def shouldDelayedPacketPropAggDelay (sq : SimQueue) (isClient : Bool) (delayedPacket : SimEvent)
    (aggregateBaseDelay : Duration) : Bool :=
  let adjacentWindow := Duration.fromMillis 100
  let baseWindow := Duration.fromMillis 1
  let q := sq.side isClient
  if (q.blocking.iter ++ q.bypassable.iter).any
      (fun e => within adjacentWindow delayedPacket.time e.time) then false
  else !q.base.peek.any
    (fun base => within baseWindow delayedPacket.time (base.time + aggregateBaseDelay))

end Delay

/-- The network between client and server. -/
structure Network where
  delay : Duration
  pps : Option Nat

def Network.sample (n : Network) : Duration := n.delay

/-- The events of the last window. -/
structure WindowCount where
  window : Duration
  timestamps : List Instant

namespace WindowCount

def new (window : Duration) : WindowCount := ⟨window, []⟩

/-- Add an event, forget those that the window has passed and count the rest. -/
def add (w : WindowCount) (currentTime : Instant) : Nat × WindowCount :=
  let timestamps := (w.timestamps ++ [currentTime]).dropWhile
    fun oldest => decide (Instant.durationSince currentTime oldest > w.window)
  (timestamps.length, { w with timestamps := timestamps })

end WindowCount

structure PendingAggregateDelay where
  time : Instant
  delay : Duration
  client : Bool
deriving DecidableEq

instance : HeapOrd PendingAggregateDelay where
  le a b := decide (b.time ≤ a.time)
  le_total a b := by
    simp only [decide_eq_true_eq]
    lia
  le_trans {a b c} h h' := by
    simp only [decide_eq_true_eq] at *
    lia

/-- A call of `pushAggregateDelay`. -/
structure DelayPush where
  blockDuration : Duration
  currentTime : Instant
  clientExpiry : Bool
deriving DecidableEq

def usizeMax : Nat := 2 ^ 64 - 1

/-- The cast `as u32`. -/
def asU32 (n : Nat) : Nat := n % 2 ^ 32

/-- The bottleneck of the network and the delays that shift the base events. -/
structure NetworkBottleneck where
  clientAggregateBaseDelay : Duration
  serverAggregateBaseDelay : Duration
  aggregateDelayQueue : BinaryHeap PendingAggregateDelay
  network : Network
  clientWindow : WindowCount
  serverWindow : WindowCount
  ppsAddedDelay : Duration
  ppsLimit : Nat
  /-- The calls of `pushAggregateDelay` so far. No function of the simulator reads them. -/
  pushes : List DelayPush

namespace NetworkBottleneck

def new (network : Network) (window : Duration) (queuePps : Option Nat) :
    Exec NetworkBottleneck :=
  let pps := network.pps.getD (queuePps.getD usizeMax)
  if asU32 pps = 0 then .error .divideByZero
  else .ok {
    network := network
    clientWindow := .new window
    serverWindow := .new window
    ppsAddedDelay := window / asU32 pps
    clientAggregateBaseDelay := 0
    serverAggregateBaseDelay := 0
    aggregateDelayQueue := .new
    ppsLimit := pps
    pushes := [] }

def aggregateBaseDelay (n : NetworkBottleneck) (isClient : Bool) : Duration :=
  if isClient then n.clientAggregateBaseDelay else n.serverAggregateBaseDelay

/-- The delay of a packet and what the bottleneck added to it. -/
def sample (n : NetworkBottleneck) (currentTime : Instant) (isClient : Bool) :
    (Duration × Option Duration) × NetworkBottleneck :=
  let (count, n) :=
    if isClient then
      let (count, w) := n.clientWindow.add currentTime
      (count, { n with clientWindow := w })
    else
      let (count, w) := n.serverWindow.add currentTime
      (count, { n with serverWindow := w })
  let delay := if count > n.ppsLimit then n.ppsAddedDelay * asU32 (count - n.ppsLimit) else 0
  if delay > 0 then ((delay + n.network.sample, some delay), n)
  else ((n.network.sample, none), n)

def peekAggregateDelay (n : NetworkBottleneck) (currentTime : Instant) : Wait :=
  match n.aggregateDelayQueue.peek with
  | some d => (Instant.durationSince d.time currentTime : Duration)
  | none => ⊤

def pushAggregateDelay (n : NetworkBottleneck) (blockDuration : Duration) (currentTime : Instant)
    (clientExpiry : Bool) : NetworkBottleneck :=
  let d := n.network.sample
  let (client, server) :=
    if clientExpiry then (4 * d - blockDuration, 3 * d - blockDuration)
    else (d - blockDuration, 4 * d - blockDuration)
  let queue := n.aggregateDelayQueue.push ⟨currentTime + client, blockDuration, true⟩
  { n with
    aggregateDelayQueue := queue.push ⟨currentTime + server, blockDuration, false⟩
    pushes := n.pushes ++ [⟨blockDuration, currentTime, clientExpiry⟩] }

def popAggregateDelay (n : NetworkBottleneck) : NetworkBottleneck :=
  match n.aggregateDelayQueue.pop with
  | (some aggregate, queue) =>
    if aggregate.client then
      { n with
        aggregateDelayQueue := queue
        clientAggregateBaseDelay := n.clientAggregateBaseDelay + aggregate.delay }
    else
      { n with
        aggregateDelayQueue := queue
        serverAggregateBaseDelay := n.serverAggregateBaseDelay + aggregate.delay }
  | (none, _) => n

end NetworkBottleneck

end Maybenot

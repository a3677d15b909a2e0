import Mathlib.Algebra.Order.Monoid.WithTop
import Mathlib.Order.Lattice.Nat
import Maybenot.Lib.BinaryHeap
import Maybenot.Framework

namespace Maybenot
open Lib

/-- How long to wait for something; `Duration::MAX` is `⊤`. -/
abbrev Wait := WithTop Duration

def unwrap (x : Option α) : Exec α :=
  match x with
  | some a => .ok a
  | none => .error .unwrapNone

structure SimEvent where
  event : TriggerEvent
  time : Instant
  integrationDelay : Duration
  client : Bool
  containsPadding : Bool
  bypass : Bool
  replace : Bool
deriving DecidableEq

/-- The order of events at one time: tunnel before normal before padding, and begin
before end. -/
def eventToUsize : TriggerEvent → Nat
  | .tunnelSent => 0
  | .normalSent => 1
  | .paddingSent _ => 2
  | .tunnelRecv => 3
  | .normalRecv => 4
  | .paddingRecv => 5
  | .blockingBegin _ => 6
  | .blockingEnd => 7
  | .timerBegin _ => 8
  | .timerEnd _ => 9

/-- Not later, and at the same time not after in the order of events. -/
def notAfter (t : Instant) (e : TriggerEvent) (t' : Instant) (e' : TriggerEvent) : Bool :=
  decide (t < t' ∨ t = t' ∧ eventToUsize e ≤ eventToUsize e')

/-- The order is reversed to get the smallest time first. -/
instance : HeapOrd SimEvent where
  le a b := notAfter b.time b.event a.time a.event
  le_total a b := by
    simp only [notAfter, decide_eq_true_eq]
    lia
  le_trans {a b c} h h' := by
    simp only [notAfter, decide_eq_true_eq] at *
    lia

/-- `a > b`, where a missing event is the least. -/
def greater : Option SimEvent → Option SimEvent → Bool
  | none, _ => false
  | some _, none => true
  | some a, some b => !HeapOrd.le a b

inductive Queue where
  | blocking | bypassable | internal | base
deriving DecidableEq

/-- The events that wait on one side. -/
structure EventQueue where
  base : BinaryHeap SimEvent
  blocking : BinaryHeap SimEvent
  bypassable : BinaryHeap SimEvent
  internal : BinaryHeap SimEvent

/-- Whether `a`, moved by the network delay, is before or at `b`. -/
def before (a b : Option SimEvent) (aNetworkDelaySum : Duration) : Bool :=
  match a, b with
  | some a, some b => notAfter (a.time + aNetworkDelaySum) a.event b.time b.event
  | some _, none => true
  | none, _ => false

namespace EventQueue

def new : EventQueue := ⟨.new, .new, .new, .new⟩

def len (q : EventQueue) : Nat :=
  q.blocking.len + q.bypassable.len + q.internal.len + q.base.len

def isEmpty (q : EventQueue) : Bool := q.len == 0

def noNormalPackets (q : EventQueue) : Bool :=
  q.base.isEmpty &&
    q.blocking.iter.all (fun e => e.event != .tunnelSent && !e.containsPadding) &&
    q.bypassable.iter.all (fun e => e.event != .tunnelSent && !e.containsPadding) &&
    q.internal.iter.all (fun e => e.event != .tunnelRecv && !e.containsPadding)

def push (q : EventQueue) (item : SimEvent) : EventQueue :=
  match item.event with
  | .tunnelSent =>
    if item.bypass then { q with bypassable := q.bypassable.push item }
    else { q with blocking := q.blocking.push item }
  | .normalSent => { q with base := q.base.push item }
  | _ => { q with internal := q.internal.push item }

/-- The heap of a queue with its name. -/
def heap (q : EventQueue) : Queue → BinaryHeap SimEvent
  | .blocking => q.blocking
  | .bypassable => q.bypassable
  | .internal => q.internal
  | .base => q.base

/-- The first of the events that no network delay moves. -/
def peekUnmoved (q : EventQueue) : Option SimEvent × Queue :=
  let first := (q.bypassable.peek, Queue.bypassable)
  let n := q.blocking.peek
  let first := if greater n first.1 then (n, .blocking) else first
  let n := q.internal.peek
  if greater n first.1 then (n, .internal) else first

def peek (q : EventQueue) (networkDelaySum : Duration) (currentTime : Instant) :
    Exec (Option SimEvent × Queue × Duration) :=
  if q.len = 0 then return (none, .blocking, 0)
  else do
    let first := q.peekUnmoved
    let n := q.base.peek
    if before n first.1 networkDelaySum then
      let e ← unwrap n
      return (n, .base, Instant.durationSince (e.time + networkDelaySum) currentTime)
    else
      let e ← unwrap first.1
      return (first.1, first.2, Instant.durationSince e.time currentTime)

def pop (q : EventQueue) (which : Queue) (networkDelaySum : Duration) :
    Exec (Option SimEvent × EventQueue) :=
  match which with
  | .blocking => return (q.blocking.pop.1, { q with blocking := q.blocking.pop.2 })
  | .bypassable => return (q.bypassable.pop.1, { q with bypassable := q.bypassable.pop.2 })
  | .internal => return (q.internal.pop.1, { q with internal := q.internal.pop.2 })
  | .base =>
    if networkDelaySum = 0 then return (q.base.pop.1, { q with base := q.base.pop.2 })
    else do
      let item ← unwrap q.base.pop.1
      return (some { item with time := item.time + networkDelaySum },
        { q with base := q.base.pop.2 })

/-- The next event that no blocking holds back, without the bypassable ones. -/
def peekNonBlocking (q : EventQueue) (networkDelaySum : Duration) : Option SimEvent × Queue :=
  if before q.base.peek q.internal.peek networkDelaySum then (q.base.peek, .base)
  else (q.internal.peek, .internal)

def getFirstBaseTime (q : EventQueue) : Option Instant := q.base.peek.map (·.time)

end EventQueue

/-- The next event that blocking holds back; bypassable events are if the blocking is
not bypassable. -/
def peekBlocking (q : EventQueue) (activeBlockingBypassable : Bool) : Option SimEvent × Queue :=
  if activeBlockingBypassable then (q.blocking.peek, .blocking)
  else if greater q.blocking.peek q.bypassable.peek then (q.blocking.peek, .blocking)
  else (q.bypassable.peek, .bypassable)

/-- The next event that blocking does not hold back; bypassable events are among them if
the blocking is bypassable. -/
def peekNonBlocking (q : EventQueue) (bypassable : Bool) (networkDelaySum : Duration) :
    Option SimEvent × Queue :=
  if bypassable then
    let bb := q.bypassable.peek
    let n := q.peekNonBlocking networkDelaySum
    if greater bb n.1 then (bb, .bypassable) else n
  else q.peekNonBlocking networkDelaySum

/-- The events that wait at the client and at the server. -/
structure SimQueue where
  client : EventQueue
  server : EventQueue
  maxPps : Option Nat

namespace SimQueue

def new : SimQueue := ⟨.new, .new, none⟩

def side (sq : SimQueue) (isClient : Bool) : EventQueue :=
  if isClient then sq.client else sq.server

def setSide (sq : SimQueue) (isClient : Bool) (q : EventQueue) : SimQueue :=
  if isClient then { sq with client := q } else { sq with server := q }

def len (sq : SimQueue) : Nat := sq.client.len + sq.server.len

def isEmpty (sq : SimQueue) : Bool := sq.len == 0

def noNormalPackets (sq : SimQueue) : Bool :=
  sq.client.noNormalPackets && sq.server.noNormalPackets

def pushSim (sq : SimQueue) (item : SimEvent) : SimQueue :=
  sq.setSide item.client ((sq.side item.client).push item)

def push (sq : SimQueue) (event : TriggerEvent) (isClient containsPadding : Bool)
    (time : Instant) (delay : Duration) : SimQueue :=
  sq.pushSim {
    event := event, time := time, integrationDelay := delay, client := isClient
    containsPadding := containsPadding, bypass := false, replace := false }

/-- The first event of both sides by the time to wait and, at one time, by the order of
events; the network delays are in the time to wait. -/
def peek (sq : SimQueue) (clientNetworkDelaySum serverNetworkDelaySum : Duration)
    (currentTime : Instant) : Exec (Option SimEvent × Queue × Duration) :=
  if sq.len = 0 then return (none, .blocking, 0)
  else do
    let c ← sq.client.peek clientNetworkDelaySum currentTime
    let s ← sq.server.peek serverNetworkDelaySum currentTime
    match c.1, s.1 with
    | some _, none => return c
    | none, some _ => return s
    | none, none => return (none, .blocking, 0)
    | some ce, some se =>
      if notAfter c.2.2 ce.event s.2.2 se.event then return c else return s

def pop (sq : SimQueue) (which : Queue) (isClient : Bool) (networkDelaySum : Duration) :
    Exec (Option SimEvent × SimQueue) := do
  let (e, q) ← (sq.side isClient).pop which networkDelaySum
  return (e, sq.setSide isClient q)

def popBlocking (sq : SimQueue) (which : Queue) (bypassable isClient : Bool)
    (networkDelaySum : Duration) : Exec (Option SimEvent × SimQueue) :=
  if bypassable then
    let q := sq.side isClient
    return (q.blocking.pop.1, sq.setSide isClient { q with blocking := q.blocking.pop.2 })
  else sq.pop which isClient networkDelaySum

def getFirstTime (sq : SimQueue) : Option Instant :=
  match sq.client.getFirstBaseTime, sq.server.getFirstBaseTime with
  | some c, some s => some (min c s)
  | some c, none => some c
  | none, some s => some s
  | none, none => none

end SimQueue

end Maybenot

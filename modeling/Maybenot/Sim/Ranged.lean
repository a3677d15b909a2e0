import Maybenot.Sim.Parse

namespace Maybenot
open Lib

/-- `Duration::MAX`: seconds in 64 bits, and nanoseconds. -/
def Duration.max : Duration := 2 ^ 64 * 1000000000 - 1

/-- The instants that a platform has. The time from one to another is a `Duration`. -/
structure InstantRange where
  first : Instant
  last : Instant
  close : Instant.durationSince last first ≤ Duration.max

/-- Some of the instants of a platform, no two of which are `Duration::MAX` apart. -/
structure InstantRange.Holds (platform range : InstantRange) : Prop where
  first : platform.first ≤ range.first
  last : range.last ≤ platform.last
  short : Instant.durationSince range.last range.first < Duration.max

/-- Seconds in 64 bits with a sign, and nanoseconds, as on Unix. -/
def unixFirst : Instant := -(2 ^ 63 * 1000000000)

def unixLast : Instant := 2 ^ 63 * 1000000000 - 1

theorem unix_close : Instant.durationSince unixLast unixFirst ≤ Duration.max := by decide

def InstantRange.unix : InstantRange := ⟨unixFirst, unixLast, unix_close⟩

/-- An instant or a duration that is computed, or how long it is to what comes next. -/
inductive Amount where
  | instant (t : Instant)
  | duration (d : Duration)
  | wait (x : Wait)

/-- What fits. An instant or a duration that does not is a panic. A wait is a time between two
instants, and where it is `Duration::MAX` the code takes it for none: the model stops there. -/
def Amount.Fits (range : InstantRange) : Amount → Prop
  | .instant t => range.first ≤ t ∧ t ≤ range.last
  | .duration d => d ≤ Duration.max
  | .wait x => x ≠ (Duration.max : Wait)

instance (range : InstantRange) : (a : Amount) → Decidable (a.Fits range)
  | .instant _ => inferInstanceAs (Decidable (_ ∧ _))
  | .duration d => inferInstanceAs (Decidable (d ≤ Duration.max))
  | .wait x => inferInstanceAs (Decidable (x ≠ (Duration.max : Wait)))

namespace NetworkBottleneck

/-- The product and the sum of `sample` where the bottleneck delays a packet. -/
def sampleAmounts (n : NetworkBottleneck) (currentTime : Instant) (isClient : Bool) :
    List Amount :=
  match (n.sample currentTime isClient).1 with
  | (networkDelay, some delay) => [.duration delay, .duration networkDelay]
  | (_, none) => []

def pushAmounts (n : NetworkBottleneck) (blockDuration : Duration) (currentTime : Instant)
    (clientExpiry : Bool) : List Amount :=
  let d := n.network.sample
  let (client, server) :=
    if clientExpiry then (4 * d - blockDuration, 3 * d - blockDuration)
    else (d - blockDuration, 4 * d - blockDuration)
  [.duration (4 * d), .instant (currentTime + client), .instant (currentTime + server)]

def popAmounts (n : NetworkBottleneck) : List Amount :=
  n.aggregateDelayQueue.peek.toList.map fun aggregate =>
    .duration (n.aggregateBaseDelay aggregate.client + aggregate.delay)

end NetworkBottleneck

/-- The time of the next base event of a side, with a delay added. -/
def SimQueue.baseAmounts (sq : SimQueue) (isClient : Bool) (networkDelaySum : Duration) :
    List Amount :=
  (sq.side isClient).base.peek.toList.map fun e => .instant (e.time + networkDelaySum)

def TriggerAction.amounts (currentTime : Instant) (triggerDelay : Duration) :
    TriggerAction Duration → List Amount
  | .cancel _ _ => []
  | .sendPadding timeout _ _ _ | .blockOutgoing timeout _ _ _ _ =>
    [.instant (currentTime + timeout), .instant (currentTime + timeout + triggerDelay)]
  | .updateTimer duration _ _ => [.instant (currentTime + duration)]

namespace Sim

variable {R G : Type}

section Pick

def expireAmounts (w : Sim R G) (b : Duration) (isClient : Bool) : List Amount :=
  let (delay, _) := (w.side isClient).reportingDelay w.rng
  let timeOfExpiry := w.currentTime + b
  let pushed := match (peekBlocking (w.sq.side isClient) false).1 with
    | none => []
    | some event =>
      if event.time < timeOfExpiry then
        match aggDelayOnBlockingExpire w.sq isClient timeOfExpiry event
            (w.network.aggregateBaseDelay isClient) with
        | some blockedDuration => w.network.pushAmounts blockedDuration timeOfExpiry isClient
        | none => []
      else []
  [.instant timeOfExpiry] ++ pushed ++ [.instant (timeOfExpiry + delay)]

def scheduledActionAmounts (w : Sim R G) (target : Instant) : List Amount :=
  match takeDue (·.time) target w.client.scheduledAction w.server.scheduledAction with
  | some (isClient, _, ⟨.blockOutgoing _ duration _ _ _, time⟩, _) =>
    let (actionDelay, rng) := (w.side isClient).actionDelay w.rng
    let (reportingDelay, _) := (w.side isClient).reportingDelay rng
    let totalDelay := actionDelay + reportingDelay
    [.instant target, .instant (time + duration), .duration totalDelay,
      .instant (time + totalDelay)]
  | _ => [.instant target]

/-- What a round of `pick_next` computes. The base events of both sides are looked at with their
delay in every round, so that the same sums need no other check where they are made again. -/
def pickAmounts (w : Sim R G) : List Amount :=
  let s := w.actionWait
  let i := w.timerWait
  let (b, bIsClient) := w.expiryWait
  let n := w.delayWait
  let peeked := w.sq.baseAmounts true w.network.clientAggregateBaseDelay ++
    w.sq.baseAmounts false w.network.serverAggregateBaseDelay
  match w.queueWait with
  | .error _ => peeked
  | .ok (q, _, _) =>
    peeked ++ [.wait s, .wait i, .wait b, .wait n, .wait q] ++
      if s = ⊤ ∧ i = ⊤ ∧ b = ⊤ ∧ n = ⊤ ∧ q = ⊤ then []
      else if n ≤ s ∧ n ≤ i ∧ n ≤ b ∧ n ≤ q then w.network.popAmounts
      else if b ≤ s ∧ b ≤ i ∧ b ≤ q then w.expireAmounts (b.untopD 0) bIsClient
      else if q ≤ s ∧ q ≤ i then [.instant (w.currentTime + q.untopD 0)]
      else if i ≤ s then [.instant (w.currentTime + i.untopD 0)]
      else w.scheduledActionAmounts (w.currentTime + s.untopD 0)

end Pick

section Network

def replaceAmounts (w : Sim R G) (next : SimEvent) : List Amount :=
  let bypassable := (w.side next.client).blockingBypassable
  match peekBlocking (w.sq.side next.client) bypassable with
  | (none, _) => []
  | (some queued, qid) =>
    if queued.client = next.client ∧ queued.event = .tunnelSent ∧
        queued.containsPadding = false ∧ next.bypass = true then
      let delay := w.network.aggregateBaseDelay next.client
      match w.sq.popBlocking qid bypassable next.client delay with
      | .ok (some popped, sq) =>
        match aggDelayOnPaddingBypassReplace sq next.client w.currentTime
            { popped with bypass := true, replace := false } delay with
        | some blockDuration => w.network.pushAmounts blockDuration w.currentTime next.client
        | none => []
      | _ => []
    else []

def sendAmounts (w : Sim R G) (next : SimEvent) : List Amount :=
  let (reportingDelay, _) := (w.side !next.client).reportingDelay w.rng
  let ((networkDelay, baselineDelay), network) := w.network.sample w.currentTime next.client
  let pushed := match baselineDelay with
    | some ppsDelay =>
      let q := w.sq.side next.client
      if (q.blocking.iter ++ q.bypassable.iter).any
          (fun e => within (Duration.fromMillis 100) next.time e.time) then []
      else
        -- the delay of the client is added for the server as well
        w.sq.baseAmounts next.client network.clientAggregateBaseDelay ++
          if shouldDelayedPacketPropAggDelay w.sq next.client next
              network.clientAggregateBaseDelay then
            network.pushAmounts ppsDelay w.currentTime next.client
          else []
    | none => []
  let sent := if next.containsPadding then next.time + next.integrationDelay
    else next.time - next.integrationDelay
  w.network.sampleAmounts w.currentTime next.client ++ pushed ++
    [.instant sent, .instant (sent + networkDelay),
      .instant (sent + networkDelay + reportingDelay)]

def networkAmounts (w : Sim R G) (next : SimEvent) : List Amount :=
  match next.event with
  | .paddingSent _ => if next.replace then w.replaceAmounts next else []
  | .tunnelSent => w.sendAmounts next
  | _ => []

end Network

variable [RngCore R]

def triggerAmounts (w : Sim R G) (next : SimEvent) : List Amount :=
  let s := w.side next.client
  let (triggerDelay, _) := s.triggerDelay w.rng
  match s.framework.triggerEvents [next.event] w.currentTime with
  | .ok (actions, _) => actions.flatMap (TriggerAction.amounts w.currentTime triggerDelay)
  | .error _ => []

/-- What the body of the main loop computes. -/
def iterateAmounts (args : SimulatorArgs G) (w : Sim R G) (next : SimEvent) : List Amount :=
  let w := { w with currentTime := next.time }
  w.networkAmounts next ++
    match w.simNetworkStack next with
    | .ok (networkActivity, w) =>
      w.triggerAmounts next ++
        if (!args.onlyNetworkActivity || networkActivity) &&
            (!args.onlyClientEvents || next.client) then [.instant next.adjusted.time]
        else []
    | .error _ => []

end Sim

/-- What a step of a run computes. The time blocked that a framework adds up is not among it, as
it is never more than the time since its start. -/
def Config.amounts [RngCore R] (args : SimulatorArgs G) : Config R G → List Amount
  | .picking w => w.pickAmounts
  | .returned e w => w.iterateAmounts args e
  | .done _ => []

/-- What a line of a trace has computed. -/
def Parsed.lineAmounts (network : Network) (client server : Option (Integration G))
    (startingTime : Instant) (p : Parsed G) (l : List Char) : List Amount :=
  match l.splitOn ',' with
  | time :: direction :: _ =>
    match parseU64 (trim time) with
    | none => []
    | some n =>
      let timestamp := startingTime + (n : Nat)
      if direction = ['s'] ∨ direction = ['s', 'n'] then
        [.instant timestamp, .instant (timestamp + (draw client p.rng).1)]
      else if direction = ['r'] ∨ direction = ['r', 'n'] then
        [.instant timestamp, .instant (timestamp - network.delay),
          .instant (timestamp - network.delay + (draw server p.rng).1)]
      else [.instant timestamp]
  | _ => []

namespace Ranged

variable {R G : Type} (range : InstantRange)

/-- Code that stops where something that it computes does not fit. -/
def checked (amounts : List Amount) (x : Exec α) : Exec α :=
  if ∀ a ∈ amounts, a.Fits range then x else .error .overflow

def next [RngCore R] (args : SimulatorArgs G) (cfg : Config R G) : Exec (Config R G) :=
  checked range (cfg.amounts args) (cfg.next args)

def run [RngCore R] (args : SimulatorArgs G) : Nat → Config R G → Exec (Sim R G)
  | _, .done w => return w
  | 0, _ => .error .outOfFuel
  | fuel + 1, c => do run args fuel (← next range args c)

def simAdvanced [RngCore R] (machinesClient machinesServer : List Machine) (sq : SimQueue)
    (args : SimulatorArgs G) (rngClient rngServer : R) (rng : G) (fuel : Nat) :
    Exec (List SimEvent) := do
  let w ← Sim.start machinesClient machinesServer sq args rngClient rngServer rng
  let w ← run range args fuel (.picking w)
  return w.trace.mergeSort fun a b => decide (a.time ≤ b.time)

def sim [RngCore R] (machinesClient machinesServer : List Machine) (sq : SimQueue)
    (delay : Duration) (maxTraceLength : Nat) (onlyNetworkActivity : Bool)
    (rngClient rngServer : R) (rng : G) (fuel : Nat) : Exec (List SimEvent) :=
  simAdvanced range machinesClient machinesServer sq
    (.new ⟨delay, none⟩ maxTraceLength onlyNetworkActivity) rngClient rngServer rng fuel

def line (network : Network) (client server : Option (Integration G)) (startingTime : Instant)
    (p : Parsed G) (l : List Char) : Exec (Parsed G) :=
  checked range (p.lineAmounts network client server startingTime l)
    (p.line network client server startingTime l)

def parseTraceAdvanced (trace : List Char) (network : Network)
    (client server : Option (Integration G)) (startingTime : Instant) (rng : G) :
    Exec SimQueue := do
  let window := WindowCount.new (Duration.fromMillis 100)
  let p ← (lines trace).foldlM (line range network client server startingTime)
    ⟨.new, window, window, 0, 0, rng⟩
  return { p.sq with maxPps := some (max p.sentMaxPps p.recvMaxPps * 10) }

def parseTrace (trace : List Char) (network : Network) (startingTime : Instant) :
    Exec SimQueue :=
  parseTraceAdvanced range (G := Unit) trace network none none startingTime ()

end Ranged

end Maybenot

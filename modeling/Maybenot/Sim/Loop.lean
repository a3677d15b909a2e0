import Maybenot.Sim.Step

namespace Maybenot
open Lib

/-- The settings of a simulation; the sources of randomness come with the start state. -/
structure SimulatorArgs (G : Type) where
  network : Network
  maxTraceLength : Nat
  maxSimIterations : Nat
  continueAfterAllNormalPacketsProcessed : Bool
  onlyClientEvents : Bool
  onlyNetworkActivity : Bool
  maxPaddingFracClient : F64
  maxBlockingFracClient : F64
  maxPaddingFracServer : F64
  maxBlockingFracServer : F64
  clientIntegration : Option (Integration G)
  serverIntegration : Option (Integration G)

def SimulatorArgs.new (network : Network) (maxTraceLength : Nat) (onlyNetworkActivity : Bool) :
    SimulatorArgs G where
  network := network
  maxTraceLength := maxTraceLength
  maxSimIterations := 0
  continueAfterAllNormalPacketsProcessed := false
  onlyClientEvents := false
  onlyNetworkActivity := onlyNetworkActivity
  maxPaddingFracClient := Flt.ofRat 0
  maxBlockingFracClient := Flt.ofRat 0
  maxPaddingFracServer := Flt.ofRat 0
  maxBlockingFracServer := Flt.ofRat 0
  clientIntegration := none
  serverIntegration := none

/-- The event with its time in the output trace: without the reporting delay, or with the
action delay of padding. -/
def SimEvent.adjusted (e : SimEvent) : SimEvent :=
  match e.event with
  | .normalSent | .tunnelRecv | .paddingRecv | .normalRecv =>
    { e with time := e.time - e.integrationDelay }
  | .paddingSent _ => { e with time := e.time + e.integrationDelay }
  | .tunnelSent =>
    if e.containsPadding then { e with time := e.time + e.integrationDelay }
    else { e with time := e.time - e.integrationDelay }
  | _ => e

/-- The `TunnelSent` event of a packet that was queued. -/
def SimEvent.tunnelSent (e : SimEvent) (containsPadding bypass replace : Bool) : SimEvent where
  event := .tunnelSent
  time := e.time
  integrationDelay := e.integrationDelay
  client := e.client
  containsPadding := containsPadding
  bypass := bypass
  replace := replace

namespace Sim

variable {R G : Type}

section Network

/-- Padding that may be replaced is, if the first blocked packet is a normal one. -/
def replacePadding (w : Sim R G) (next : SimEvent) : Exec (Option (Sim R G)) := do
  let bypassable := (w.side next.client).blockingBypassable
  match peekBlocking (w.sq.side next.client) bypassable with
  | (none, _) => return none
  | (some queued, qid) =>
    if queued.client = next.client ∧ queued.event = .tunnelSent ∧ queued.containsPadding = false then
      if next.bypass then
        -- the packet is inserted again to get into the queue that its new flags ask for
        let delay := w.network.aggregateBaseDelay next.client
        let (popped, sq) ← w.sq.popBlocking qid bypassable next.client delay
        let popped ← unwrap popped
        let entry := { popped with bypass := true, replace := false }
        let network := match aggDelayOnPaddingBypassReplace sq next.client w.currentTime entry
            delay with
          | some blockDuration =>
            w.network.pushAggregateDelay blockDuration w.currentTime next.client
          | none => w.network
        return some (({ w with sq := sq.pushSim entry, network := network }).note
          (.replaced next.client))
      else return some (w.note (.replaced next.client))
    else return none

/-- A packet crosses the network to the other side. -/
def sendPacket (w : Sim R G) (next : SimEvent) : Sim R G :=
  let (reportingDelay, rng) := (w.side !next.client).reportingDelay w.rng
  let ((networkDelay, baselineDelay), network) := w.network.sample w.currentTime next.client
  let network := match baselineDelay with
    | some ppsDelay =>
      if shouldDelayedPacketPropAggDelay w.sq next.client next
          network.clientAggregateBaseDelay then
        network.pushAggregateDelay ppsDelay w.currentTime next.client
      else network
    | none => network
  -- a packet reported late at its sender may reach the other side earlier, hence the maximum
  let reported := if next.containsPadding then
      next.time + next.integrationDelay + networkDelay + reportingDelay
    else max (next.time - next.integrationDelay + networkDelay + reportingDelay) w.currentTime
  pushSim { w with rng := rng, network := network } {
    event := .tunnelRecv, time := reported, integrationDelay := reportingDelay
    client := !next.client, containsPadding := next.containsPadding
    bypass := false, replace := false }

/-- The network between client and server; the answer is whether a packet was sent or
received. -/
def simNetworkStack (w : Sim R G) (next : SimEvent) : Exec (Bool × Sim R G) :=
  match next.event with
  | .normalSent => return (false, w.pushSim (next.tunnelSent false false false))
  | .paddingSent _ => do
    match ← if next.replace then w.replacePadding next else pure none with
    | some w => return (false, w)
    | none => return (false, w.pushSim (next.tunnelSent true next.bypass next.replace))
  | .tunnelSent => return (true, w.sendPacket next)
  | .tunnelRecv =>
    let event := if next.containsPadding then TriggerEvent.paddingRecv else .normalRecv
    return (true, { w with
      sq := w.sq.push event next.client next.containsPadding next.time next.integrationDelay })
  | _ => return (false, w)

end Network

section Trigger

def setAt (xs : List α) (i : Nat) (x : α) : Exec (List α) :=
  if i < xs.length then .ok (xs.set i x) else .error .outOfBounds

/-- Schedule what the framework asks of one side. -/
def applyAction (isClient : Bool) (triggerDelay : Duration) (w : Sim R G)
    (action : TriggerAction Duration) : Exec (Sim R G) := do
  let s := w.side isClient
  match action with
  | .cancel machine timer =>
    match timer with
    | .action =>
      let actions ← setAt s.scheduledAction machine none
      return w.setSide isClient { s with scheduledAction := actions }
    | .internal =>
      let timers ← setAt s.scheduledInternalTimer machine none
      return w.setSide isClient { s with scheduledInternalTimer := timers }
    | .all =>
      let actions ← setAt s.scheduledAction machine none
      let timers ← setAt s.scheduledInternalTimer machine none
      return w.setSide isClient
        { s with scheduledAction := actions, scheduledInternalTimer := timers }
  | .sendPadding timeout _ _ machine | .blockOutgoing timeout _ _ _ machine =>
    let actions ← setAt s.scheduledAction machine
      (some ⟨action, w.currentTime + timeout + triggerDelay⟩)
    return w.setSide isClient { s with scheduledAction := actions }
  | .updateTimer duration replace machine =>
    let current := (← at? s.scheduledInternalTimer machine).getD w.currentTime
    if replace ∨ current < w.currentTime + duration then
      let timers ← setAt s.scheduledInternalTimer machine (some (w.currentTime + duration))
      return (w.setSide isClient { s with scheduledInternalTimer := timers }).pushSim {
        client := isClient, event := .timerBegin machine, time := w.currentTime
        integrationDelay := 0, bypass := false, replace := false, containsPadding := false }
    else return w

def triggerUpdate [RngCore R] (w : Sim R G) (next : SimEvent) : Exec (Sim R G) := do
  let s := w.side next.client
  let (triggerDelay, rng) := s.triggerDelay w.rng
  let (actions, framework) ← s.framework.triggerEvents [next.event] w.currentTime
  let w := { w.setSide next.client { s with framework := framework } with rng := rng }
  actions.foldlM (applyAction next.client triggerDelay) w

end Trigger

/-- Save an event to the trace unless the settings leave it out. -/
def record (w : Sim R G) (args : SimulatorArgs G) (next : SimEvent) (networkActivity : Bool) :
    Sim R G :=
  if (!args.onlyNetworkActivity || networkActivity) && (!args.onlyClientEvents || next.client) then
    { w with trace := w.trace ++ [next.adjusted] }
  else w

/-- The body of the main loop; the answer is whether the loop is left. -/
def iterate [RngCore R] (args : SimulatorArgs G) (w : Sim R G) (next : SimEvent) :
    Exec (Bool × Sim R G) :=
  if next.time < w.currentTime then .error .timeBackwards
  else do
    let w := { w with currentTime := next.time }
    let (networkActivity, w) ← w.simNetworkStack next
    let w ← w.triggerUpdate next
    let w := (w.record args next networkActivity).note (.processed next)
    if args.maxTraceLength > 0 ∧ w.trace.length ≥ args.maxTraceLength then return (true, w)
    else
      let w := { w with simIterations := w.simIterations + 1 }
      if args.maxSimIterations > 0 ∧ w.simIterations ≥ args.maxSimIterations then
        return (true, w)
      else if !args.continueAfterAllNormalPacketsProcessed && w.sq.noNormalPackets then
        return (true, w)
      else return (false, w)

/-- The state in which the main loop begins. -/
def start [RngCore R] (machinesClient machinesServer : List Machine) (sq : SimQueue)
    (args : SimulatorArgs G) (rngClient rngServer : R) (rng : G) : Exec (Sim R G) := do
  let currentTime ← unwrap sq.getFirstTime
  let client ← SimState.new machinesClient currentTime args.maxPaddingFracClient
    args.maxBlockingFracClient args.clientIntegration rngClient
  let server ← SimState.new machinesServer currentTime args.maxPaddingFracServer
    args.maxBlockingFracServer args.serverIntegration rngServer
  let network ← NetworkBottleneck.new args.network (Duration.fromMillis 1000) sq.maxPps
  return {
    sq := sq, client := client, server := server, network := network
    currentTime := currentTime, rng := rng, trace := [], simIterations := 0, log := [] }

end Sim

/-- Where a run of the simulator is: it picks the next event, has picked one, or is done. -/
inductive Config (R G : Type) where
  | picking (w : Sim R G)
  | returned (next : SimEvent) (w : Sim R G)
  | done (w : Sim R G)

namespace Config

variable {R G : Type}

def sim : Config R G → Sim R G
  | .picking w | .returned _ w | .done w => w

/-- The next place of a run: a round of picking, or the body of the main loop. -/
def next [RngCore R] (args : SimulatorArgs G) : Config R G → Exec (Config R G)
  | .picking w => do
    match ← w.pickStep with
    | (.again, w) => return .picking w
    | (.found none, w) => return .done w
    | (.found (some e), w) => return .returned e w
  | .returned e w => do
    let (stop, w) ← w.iterate args e
    return if stop then .done w else .picking w
  | .done w => return .done w

/-- A run of so many steps at most. -/
def run [RngCore R] (args : SimulatorArgs G) : Nat → Config R G → Exec (Sim R G)
  | _, .done w => return w
  | 0, _ => .error .outOfFuel
  | fuel + 1, c => do run args fuel (← c.next args)

end Config

/-- The simulator: its output trace, sorted by time. -/
def simAdvanced [RngCore R] (machinesClient machinesServer : List Machine) (sq : SimQueue)
    (args : SimulatorArgs G) (rngClient rngServer : R) (rng : G) (fuel : Nat) :
    Exec (List SimEvent) := do
  let w ← Sim.start machinesClient machinesServer sq args rngClient rngServer rng
  let w ← (Config.picking w).run args fuel
  return w.trace.mergeSort fun a b => decide (a.time ≤ b.time)

def sim [RngCore R] (machinesClient machinesServer : List Machine) (sq : SimQueue)
    (delay : Duration) (maxTraceLength : Nat) (onlyNetworkActivity : Bool)
    (rngClient rngServer : R) (rng : G) (fuel : Nat) : Exec (List SimEvent) :=
  simAdvanced machinesClient machinesServer sq
    (.new ⟨delay, none⟩ maxTraceLength onlyNetworkActivity) rngClient rngServer rng fuel

end Maybenot

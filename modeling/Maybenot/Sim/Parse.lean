import Maybenot.Sim.Loop

namespace Maybenot
open Lib

section Text

/-- The `White_Space` property of Unicode. -/
def isWhiteSpace (c : Char) : Bool :=
  (9 ≤ c.val && c.val ≤ 13) || c.val == 0x20 || c.val == 0x85 || c.val == 0xA0 ||
    c.val == 0x1680 || (0x2000 ≤ c.val && c.val ≤ 0x200A) || c.val == 0x2028 ||
    c.val == 0x2029 || c.val == 0x202F || c.val == 0x205F || c.val == 0x3000

def trim (s : List Char) : List Char :=
  ((s.dropWhile isWhiteSpace).reverse.dropWhile isWhiteSpace).reverse

/-- A line that ended in a line feed, without a carriage return before it. -/
def stripReturn (line : List Char) : List Char :=
  if line.getLast? = some '\r' then line.dropLast else line

/-- The lines of a text; the last one counts only if it is not empty. -/
def lines (text : List Char) : List (List Char) :=
  let pieces := text.splitOn '\n'
  let last := pieces.getLast?.getD []
  pieces.dropLast.map stripReturn ++ if last.isEmpty then [] else [last]

def digit (c : Char) : Option Nat :=
  if c.isDigit then some (c.toNat - '0'.toNat) else none

/-- The value of some digits after those of `acc`, within 64 bits. -/
def parseDigits (acc : Nat) : List Char → Option Nat
  | [] => some acc
  | c :: cs => do
    let d ← digit c
    if 10 * acc + d ≤ u64Max then parseDigits (10 * acc + d) cs else none

def parseU64 (s : List Char) : Option Nat :=
  match s with
  | [] => none
  | '+' :: [] => none
  | '+' :: cs => parseDigits 0 cs
  | cs => parseDigits 0 cs

end Text

/-- What is built up from the lines of a trace. -/
structure Parsed (G : Type) where
  sq : SimQueue
  sentWindow : WindowCount
  recvWindow : WindowCount
  sentMaxPps : Nat
  recvMaxPps : Nat
  rng : G

namespace Parsed

variable {G : Type}

def draw (integration : Option (Integration G)) (rng : G) : Duration × G :=
  match integration with
  | some i => i.reportingDelay rng
  | none => (0, rng)

def sent (p : Parsed G) (client : Option (Integration G)) (timestamp : Instant) : Parsed G :=
  let (reportingDelay, rng) := draw client p.rng
  let (m, window) := p.sentWindow.add timestamp
  { p with
    sq := p.sq.push .normalSent true false (timestamp + reportingDelay) reportingDelay
    sentWindow := window
    sentMaxPps := if m > p.sentMaxPps then m else p.sentMaxPps
    rng := rng }

/-- A packet that the client received was sent by the server the network delay before. -/
def received (p : Parsed G) (network : Network) (server : Option (Integration G))
    (timestamp : Instant) : Parsed G :=
  let (reportingDelay, rng) := draw server p.rng
  let (m, window) := p.recvWindow.add timestamp
  { p with
    sq := p.sq.push .normalSent false false (timestamp - network.delay + reportingDelay)
      reportingDelay
    recvWindow := window
    recvMaxPps := if m > p.recvMaxPps then m else p.recvMaxPps
    rng := rng }

def line (network : Network) (client server : Option (Integration G)) (startingTime : Instant)
    (p : Parsed G) (l : List Char) : Exec (Parsed G) :=
  match l.splitOn ',' with
  | time :: direction :: _ => do
    let timestamp := startingTime + (← unwrap (parseU64 (trim time)) : Nat)
    if direction = ['s'] ∨ direction = ['s', 'n'] then return p.sent client timestamp
    else if direction = ['r'] ∨ direction = ['r', 'n'] then
      return p.received network server timestamp
    else if direction = ['s', 'p'] ∨ direction = ['r', 'p'] then return p
    else .error .invalidTrace
  | _ => return p

end Parsed

/-- The queue of a trace, with the limit of packets a second that it never reached. -/
def parseTraceAdvanced (trace : List Char) (network : Network)
    (client server : Option (Integration G)) (startingTime : Instant) (rng : G) :
    Exec SimQueue := do
  let window := WindowCount.new (Duration.fromMillis 100)
  let p ← (lines trace).foldlM (Parsed.line network client server startingTime)
    ⟨.new, window, window, 0, 0, rng⟩
  return { p.sq with maxPps := some (max p.sentMaxPps p.recvMaxPps * 10) }

def parseTrace (trace : List Char) (network : Network) (startingTime : Instant) :
    Exec SimQueue :=
  parseTraceAdvanced (G := Unit) trace network none none startingTime ()

end Maybenot

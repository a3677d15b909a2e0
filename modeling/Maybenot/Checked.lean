import Maybenot.Framework
import Maybenot.Parsing

namespace Maybenot
open Lib

/-- The outcome of code that may also panic: the parser of version 1 with every slice, every
index and every sum of offsets that could. -/
abbrev Checked := ExceptT Error Exec

namespace Checked

def fault (why : Fault) : Checked α := ExceptT.mk (.error why)

/-- The result of code that does not panic. -/
def lift (x : Except Error α) : Checked α := ExceptT.mk (.ok x)

def fail (text : String) (args : List Arg := []) : Checked Unit := lift (Maybenot.fail text args)

/-- A sum of two `usize` of 64 bits. -/
def addUsize (m n : Nat) : Checked Nat := if m + n ≤ u64Max then pure (m + n) else fault .overflow

def mulUsize (m n : Nat) : Checked Nat := if m * n ≤ u64Max then pure (m * n) else fault .overflow

def slice (buf : List UInt8) (i j : Nat) : Checked (List UInt8) :=
  if i ≤ j ∧ j ≤ buf.length then pure (Bytes.slice buf i j) else fault .outOfBounds

def byte (buf : List UInt8) (i : Nat) : Checked UInt8 :=
  match buf[i]? with
  | some b => pure b
  | none => fault .outOfBounds

/-- The number in the first `k` bytes, which have to be there. -/
def readUint (k : Nat) (buf : List UInt8) : Checked Nat :=
  if k ≤ buf.length then pure (Bytes.decode (buf.take k)) else fault .outOfBounds

def readAt (k : Nat) (buf : List UInt8) (r : Nat) : Checked Nat := do
  let s ← slice buf r (← addUsize r k)
  readUint k s

def fromBits (n : Nat) : F64 := ⟨BitVec.ofNat _ n⟩

def parseDist (buf : List UInt8) : Checked (Option Dist) := do
  if buf.length < serializedDistSize then fail "too small"
  let type ← readUint 2 (← slice buf 0 2)
  let param1 ← readUint 8 (← slice buf 2 10)
  let param2 ← readUint 8 (← slice buf 10 18)
  let distType := bufToDistType type (fromBits param1) (fromBits param2)
  let start ← readUint 8 (← slice buf 18 26)
  let max ← readUint 8 (← slice buf 26 34)
  return distType.map fun dist => { dist, start := fromBits start, max := fromBits max }

def expectedStateLen (numStates : Nat) : Checked Nat := do
  let fixed ← addUsize (← mulUsize 3 serializedDistSize) 4
  let row ← mulUsize (← addUsize numStates 2) 8
  let matrix ← mulUsize row (← addUsize v1EventsIter.length 1)
  addUsize fixed matrix

def parseTrans (buf : List UInt8) (numStates : Nat) (event : Event) (acc : Matrix) (i : Nat) :
    Checked Matrix := do
  let v := fromBits (← readAt 8 buf acc.1)
  let r ← addUsize acc.1 8
  let push (state : Nat) : Matrix :=
    (r, Function.update acc.2 event (acc.2 event ++ [⟨state, asF32 v⟩]))
  if v.val ≠ .fin 0 then
    if i < numStates then return push i
    else if i = numStates then
      lift (.error (.machine ⟨"invalid state, not supported in v2", []⟩))
    else return push stateEnd
  else return (r, acc.2)

def parseRow (buf : List UInt8) (numStates : Nat) (acc : Matrix) (event : Event) :
    Checked Matrix := do
  let columns ← addUsize numStates 2
  (List.range columns).foldlM (parseTrans buf numStates event) acc

def parseState (buf : List UInt8) (numStates : Nat) : Checked State := do
  if buf.length < (← expectedStateLen numStates) then fail "too small"
  let r := 0
  let duration ← parseDist (← slice buf r (← addUsize r serializedDistSize))
  let r ← addUsize r serializedDistSize
  let limit ← parseDist (← slice buf r (← addUsize r serializedDistSize))
  let r ← addUsize r serializedDistSize
  let timeout ← parseDist (← slice buf r (← addUsize r serializedDistSize))
  let r ← addUsize r serializedDistSize
  let actionIsBlock := (← byte buf r) == 1
  let r ← addUsize r 1
  let bypass := (← byte buf r) == 1
  let r ← addUsize r 1
  let replace := (← byte buf r) == 1
  let r ← addUsize r 1
  let action ← lift (parseAction timeout duration limit actionIsBlock bypass replace)
  let r ← addUsize r 1
  let (_, transitions) ← v1EventsIter.foldlM (parseRow buf numStates) (r, fun _ => [])
  return { State.new transitions with action := action }

def parseNext (buf : List UInt8) (numStates stateLen : Nat) (acc : Nat × List State) :
    Checked (Nat × List State) := do
  let s ← parseState (← slice buf acc.1 (← addUsize acc.1 stateLen)) numStates
  let r ← addUsize acc.1 stateLen
  return (r, acc.2 ++ [s])

def parseV1 (R : Type) [RngCore R] (buf : List UInt8) : Checked Machine := do
  if buf.length < 4 * 8 + 1 + 2 then fail "not enough data for version 1 machine"
  let r := 0
  let allowedPaddingPackets ← readAt 8 buf r
  let r ← addUsize r 8
  let maxPaddingFrac ← readAt 8 buf r
  let r ← addUsize r 8
  let allowedBlockedMicrosec ← readAt 8 buf r
  let r ← addUsize r 8
  let maxBlockingFrac ← readAt 8 buf r
  let r ← addUsize r 8
  let r ← addUsize r 1
  let numStates ← readAt 2 buf r
  let r ← addUsize r 2
  let stateLen ← expectedStateLen numStates
  let rest ← slice buf r buf.length
  let expected ← mulUsize stateLen numStates
  if rest.length ≠ expected then
    fail "expected % bytes for % states, but got % bytes"
      [.usize expected, .usize numStates, .usize rest.length]
  let (_, states) ← (List.range numStates).foldlM (fun acc _ => parseNext buf numStates stateLen acc)
    (r, [])
  lift (Machine.new R allowedPaddingPackets (fromBits maxPaddingFrac) allowedBlockedMicrosec
    (fromBits maxBlockingFrac) states)

end Checked

end Maybenot

import Mathlib.Logic.Function.Basic
import Maybenot.Lib.Bytes
import Maybenot.Serialize

namespace Maybenot
open Lib Bytes

/-- The size of a distribution in a machine of version 1. -/
def serializedDistSize : Nat := 2 + 8 * 4

/-- The events of version 1 in its order. -/
def v1EventsIter : List Event :=
  [.normalRecv, .paddingRecv, .normalSent, .paddingSent, .blockingBegin, .blockingEnd,
    .limitReached]

/-- The cast `as f32`. -/
def asF32 (x : F64) : F32 := .round x.val

/-- A float with the bits that eight bytes stand for. -/
def readF64 (buf : List UInt8) : F64 := ⟨BitVec.ofNat _ (decode buf)⟩

/-- A geometric or a Poisson distribution gets the parameter 0.0, not the one that was read. -/
def bufToDistType (buf : Nat) (param1 param2 : F64) : Option DistType :=
  match buf with
  | 0 => none
  | 1 => some (.uniform param1 param2)
  | 2 => some (.normal param1 param2)
  | 3 => some (.logNormal param1 param2)
  | 4 => some (.binomial param1.val.toU64 param2)
  | 5 => some (.geometric (Flt.ofRat 0))
  | 6 => some (.pareto param1 param2)
  | 7 => some (.poisson (Flt.ofRat 0))
  | 8 => some (.weibull param1 param2)
  | 9 => some (.gamma param1 param2)
  | 10 => some (.beta param1 param2)
  | _ => none

def parseDist (buf : List UInt8) : Except Error (Option Dist) := do
  if buf.length < serializedDistSize then fail "too small"
  let type := decode (slice buf 0 2)
  let param1 := readF64 (slice buf 2 10)
  let param2 := readF64 (slice buf 10 18)
  let distType := bufToDistType type param1 param2
  let start := readF64 (slice buf 18 26)
  let max := readF64 (slice buf 26 34)
  return distType.map fun dist => { dist, start, max }

/-- The size of a state: three distributions, four flags and the matrix of its next states. -/
def expectedStateLen (numStates : Nat) : Nat :=
  3 * serializedDistSize + 4 + (numStates + 2) * 8 * (v1EventsIter.length + 1)

/-- The offset in the buffer and the transitions so far. -/
abbrev Matrix := Nat × (Event → List Trans)

/-- One probability of the matrix; that of the state after the last one was a cancel. -/
def parseTrans (buf : List UInt8) (numStates : Nat) (event : Event) (acc : Matrix) (i : Nat) :
    Except Error Matrix :=
  let (r, transitions) := acc
  let v := readF64 (slice buf r (r + 8))
  if v.val ≠ .fin 0 then
    let push (state : Nat) : Matrix :=
      (r + 8, Function.update transitions event (transitions event ++ [⟨state, asF32 v⟩]))
    if i < numStates then .ok (push i)
    else if i = numStates then
      .error (.machine ⟨"invalid state, not supported in v2", []⟩)
    else .ok (push stateEnd)
  else .ok (r + 8, transitions)

def parseRow (buf : List UInt8) (numStates : Nat) (acc : Matrix) (event : Event) :
    Except Error Matrix :=
  (List.range (numStates + 2)).foldlM (parseTrans buf numStates event) acc

/-- The action of a state. -/
def parseAction (timeout duration limit : Option Dist) (actionIsBlock bypass replace : Bool) :
    Except Error (Option Action) :=
  match timeout with
  | some timeout =>
    if actionIsBlock then
      match duration with
      | none => .error (.machine ⟨"missing duration", []⟩)
      | some duration => .ok (some (.blockOutgoing bypass replace timeout duration limit))
    else .ok (some (.sendPadding bypass replace timeout limit))
  | none => .ok none

/-- Every slice is within the buffer, whose length is checked first. -/
def parseState (buf : List UInt8) (numStates : Nat) : Except Error State := do
  if buf.length < expectedStateLen numStates then fail "too small"
  let r := 0
  let duration ← parseDist (slice buf r (r + serializedDistSize))
  let r := r + serializedDistSize
  let limit ← parseDist (slice buf r (r + serializedDistSize))
  let r := r + serializedDistSize
  let timeout ← parseDist (slice buf r (r + serializedDistSize))
  let r := r + serializedDistSize
  let actionIsBlock := buf.getD r 0 == 1
  let r := r + 1
  let bypass := buf.getD r 0 == 1
  let r := r + 1
  let replace := buf.getD r 0 == 1
  let r := r + 1
  let action ← parseAction timeout duration limit actionIsBlock bypass replace
  -- the flag that says what the limit includes is not read
  let r := r + 1
  let (_, transitions) ← v1EventsIter.foldlM (parseRow buf numStates) (r, fun _ => [])
  return { State.new transitions with action := action }

/-- The next state of a machine, at an offset, after those that were parsed. -/
def parseNext (buf : List UInt8) (numStates : Nat) (acc : Nat × List State) :
    Except Error (Nat × List State) := do
  let (r, states) := acc
  let s ← parseState (slice buf r (r + expectedStateLen numStates)) numStates
  return (r + expectedStateLen numStates, states ++ [s])

/-- A machine of version 1, after the two bytes of the version. -/
def parseV1 (R : Type) [RngCore R] (buf : List UInt8) : Except Error Machine := do
  if buf.length < 4 * 8 + 1 + 2 then fail "not enough data for version 1 machine"
  let r := 0
  let allowedPaddingPackets := decode (slice buf r (r + 8))
  let r := r + 8
  let maxPaddingFrac := readF64 (slice buf r (r + 8))
  let r := r + 8
  let allowedBlockedMicrosec := decode (slice buf r (r + 8))
  let r := r + 8
  let maxBlockingFrac := readF64 (slice buf r (r + 8))
  let r := r + 8
  -- the flag that says whether small packets are included is not read
  let r := r + 1
  let numStates := decode (slice buf r (r + 2))
  let r := r + 2
  let rest := (buf.drop r).length
  if rest ≠ expectedStateLen numStates * numStates then
    fail "expected % bytes for % states, but got % bytes"
      [.usize (expectedStateLen numStates * numStates), .usize numStates, .usize rest]
  let (_, states) ← (List.range numStates).foldlM (fun acc _ => parseNext buf numStates acc)
    (r, [])
  Machine.new R allowedPaddingPackets maxPaddingFrac allowedBlockedMicrosec maxBlockingFrac states

/-- What the `hex` and `flate2` crates give for the texts of version 1. -/
structure HexCodecs where
  decode : List Char → Except String (List UInt8)
  readToEnd : List UInt8 → Except String (List UInt8)

/-- A machine of version 1 from a hex string. -/
def parseV1Machine (R : Type) [RngCore R] (lib : HexCodecs) (s : List Char) :
    Except Error Machine := do
  let compressed ← crateError (lib.decode s)
  let buf ← crateError (lib.readToEnd compressed)
  if buf.length < 2 then fail "cannot read version"
  let version := decode (slice buf 0 2)
  let payload := buf.drop 2
  if version ≠ 1 then fail "unsupported version: %" [.usize version]
  parseV1 R payload

end Maybenot

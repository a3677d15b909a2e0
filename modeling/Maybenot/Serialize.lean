import Maybenot.Machine

namespace Maybenot
open Lib

/-- The version of machines that is written and read. -/
def version : Nat := 2

/-- The version as `{:02}` formats it. -/
def versionText : List Char := ['0', '2']

def maxDecompressedSize : Nat := 2 ^ 20

/-- What the `bincode`, `flate2` and `base64` crates give; bytes are read from a decoder in
pieces. -/
structure Codecs where
  bincode : Machine → List UInt8
  unbincode : (limit : Nat) → List UInt8 → Except String Machine
  Decoder : Type
  compress : List UInt8 → List UInt8
  decoder : List UInt8 → Decoder
  /-- A read of at most so many bytes. -/
  read : Decoder → Nat → Except String (List UInt8) × Decoder
  base64 : List UInt8 → List Char
  unbase64 : List Char → Option (List UInt8)

/-- An error of one of the crates. -/
def crateError (x : Except String α) : Except Error α :=
  x.mapError fun e => .machine ⟨e, []⟩

/-- The length of a text in UTF-8. -/
def utf8Len (s : List Char) : Nat := (s.map (·.utf8Size)).sum

def isAscii (s : List Char) : Bool := s.all fun c => c.val < 128

namespace Machine

/-- There is no text of a machine that is too large: the source unwraps an error then. -/
def serialize (lib : Codecs) (m : Machine) : Option (List Char) :=
  let encoded := lib.bincode m
  if encoded.length ≤ maxDecompressedSize then
    some (versionText ++ lib.base64 (lib.compress encoded))
  else none

/-- One read of the decoder is all that is taken from it. -/
def fromStr (R : Type) [RngCore R] (lib : Codecs) (s : List Char) : Except Error Machine := do
  if utf8Len s < 3 then fail "string too short"
  if ¬ isAscii s then fail "string is not ascii"
  let found := s.take 2
  if found ≠ versionText then
    fail ("version mismatch, expected %, got " ++ String.ofList found) [.usize version]
  match lib.unbase64 (s.drop 2) with
  | none => .error (.machine ⟨"base64 decoding failed", []⟩)
  | some compressed =>
    let buf ← crateError (lib.read (lib.decoder compressed) maxDecompressedSize).1
    let m ← crateError (lib.unbincode maxDecompressedSize buf)
    m.validate R
    return m

end Machine

end Maybenot

import Maybenot.Sim.Parse
import Maybenot.Lib.Search
import Maybenot.Lib.Rounding
import Mathlib.Data.List.Sort

namespace Maybenot
open Lib

section Text

/-- The number that some digits write. -/
def digitsValue (cs : List Char) : Nat :=
  cs.foldl (fun acc c => 10 * acc + (c.toNat - '0'.toNat)) 0

def splitSign : List Char → Bool × List Char
  | '-' :: cs => (true, cs)
  | '+' :: cs => (false, cs)
  | cs => (false, cs)

/-- The exponent after the digits of a number. -/
def parseExponent : List Char → Option Int
  | [] => some 0
  | c :: cs =>
    if c = 'e' ∨ c = 'E' then
      let (neg, digits) := splitSign cs
      if digits.isEmpty || !digits.all Char.isDigit then none
      else some (if neg then -digitsValue digits else digitsValue digits)
    else none

/-- The digits after a point, and what follows them. -/
def splitFraction : List Char → List Char × List Char
  | '.' :: cs => cs.span Char.isDigit
  | cs => ([], cs)

/-- A number of digits, with a point among them and an exponent after them or without. -/
def parseNumber (cs : List Char) : Option Rat :=
  let (whole, rest) := cs.span Char.isDigit
  let (frac, rest) := splitFraction rest
  if whole.isEmpty && frac.isEmpty then none
  else do
    let expo ← parseExponent rest
    let place : Int := expo - frac.length
    return mkRat (digitsValue (whole ++ frac) * 10 ^ place.toNat) (10 ^ (-place).toNat)

/-- The `FromStr` of an `f64`. -/
def parseF64 (s : List Char) : Except String F64 :=
  if s.isEmpty then .error "cannot parse float from empty string"
  else
    let (neg, cs) := splitSign s
    let name := cs.map Char.toLower
    if name = "nan".toList then .ok (Flt.round .nan)
    else if name = "inf".toList ∨ name = "infinity".toList then .ok (Flt.round (.inf neg))
    else
      match parseNumber cs with
      | some q => .ok (Flt.ofParts neg (Flt.rounded 11 52 q))
      | none => .error "invalid float literal"

def trimMatches (p : Char → Bool) (s : List Char) : List Char :=
  ((s.dropWhile p).reverse.dropWhile p).reverse

/-- The ends of a bin, written as a tuple. -/
def parseRange (range : List Char) : Except String (F64 × F64) := do
  let inner := trimMatches (fun c => c == '(' || c == ')') range
  let rangeValues ← ((inner.splitOn ',').map trim).mapM parseF64
  match rangeValues with
  | [low, high] => return (low, high)
  | _ => .error "Range must have exactly two values"

end Text

/-- A bin with its probability. -/
structure Bin where
  range : F64 × F64
  prob : Rat
deriving DecidableEq

/-- A distribution of values in bins. -/
structure BinDist where
  /-- The ends of each bin, in milliseconds. -/
  bins : List (F64 × F64)
  cumulativeProbabilities : List Rat
  aligned : cumulativeProbabilities.length = bins.length
deriving DecidableEq

namespace BinDist

def parseBin (entry : List Char × Rat) : Except String Bin := do
  let range ← parseRange entry.1
  return ⟨range, entry.2⟩

/-- Sort by where the bins start. A start that is NaN cannot be compared, and with more bins than
one it is. -/
def sortBins (bins : List Bin) : Exec (List Bin) :=
  if 2 ≤ bins.length ∧ bins.any (fun b => b.range.1.val = .nan) = true then .error .unwrapNone
  else .ok (bins.insertionSort fun a b => a.range.1.val.le b.range.1.val = true)

/-- The sums of the probabilities up to and with each bin. -/
def accumulate (total : Rat) : List Bin → List Rat
  | [] => []
  | b :: bs => (total + b.prob) :: accumulate (total + b.prob) bs

theorem accumulate_length (total : Rat) (bins : List Bin) :
    (accumulate total bins).length = bins.length := by
  induction bins generalizing total with
  | nil => rfl
  | cons b bs ih => exact congrArg (· + 1) (ih (total + b.prob))

def ofSorted (bins : List Bin) : BinDist where
  bins := bins.map Bin.range
  cumulativeProbabilities := accumulate 0 bins
  aligned := by rw [accumulate_length, List.length_map]

/-- `fromStr` is the JSON parser of the `serde_json` crate, which answers with the entries of the
map in the order they are iterated in. -/
def new (fromStr : List Char → Except String (List (List Char × Rat))) (jsonInput : List Char) :
    Exec (Except String BinDist) :=
  match fromStr jsonInput >>= fun entries => entries.mapM parseBin with
  | .error e => .ok (.error e)
  | .ok bins => do
    let sorted ← sortBins bins
    return .ok (ofSorted sorted)

/-- The bin that a search of the draw comes to, whether it found the draw or not. -/
def binIndex (search : List Rat → Rat → Except Nat Nat) (d : BinDist) (sampleProb : Rat) : Nat :=
  match search d.cumulativeProbabilities sampleProb with
  | .ok index => index
  | .error index => index

/-- A bound in microseconds. -/
def micros (x : F64) : F64 := x.mul (Flt.ofRat 1000)

/-- A value of a bin, without a draw where there is one only. -/
def sampleBin (genRange : F64 → F64 → Exec F64) (range : F64 × F64) : Exec Duration :=
  if range.1.val = range.2.val ∧ range.1.val ≠ .nan then
    return Duration.fromMicros (micros range.1).val.toU64
  else do
    let x ← genRange range.1 range.2
    return Duration.fromMicros (micros x).val.toU64

/-- `search` is the binary search of a slice, `genRange` draws from a half-open range as the `rand`
crate does, and `sampleProb` is the uniform draw. -/
def sample (search : List Rat → Rat → Except Nat Nat) (genRange : F64 → F64 → Exec F64)
    (d : BinDist) (sampleProb : Rat) : Exec Duration := do
  let range ← at? d.bins (d.binIndex search sampleProb)
  sampleBin genRange range

/-- A range that can be drawn from: not empty, with a finite length. -/
def Drawable (low high : F64) : Prop :=
  low.val.lt high.val = true ∧ (high.sub low).isInfinite = false

instance (low high : F64) : Decidable (Drawable low high) := inferInstanceAs (Decidable (_ ∧ _))

/-- What the `rand` crate documents of a draw from a range: it panics if the range is empty or its
length overflows, and comes to a value of the range otherwise. -/
structure DrawsRange (genRange : F64 → F64 → Exec F64) : Prop where
  fails : ¬ Drawable low high → ∃ e, genRange low high = .error e
  draws : Drawable low high → ∃ x, genRange low high = .ok x ∧
    low.val.le x.val = true ∧ x.val.lt high.val = true

/-- A generator whose every draw is zero. -/
def drawLowest (low high : F64) : Exec F64 :=
  if Drawable low high then .ok low else .error .unwrapError

theorem drawLowest_draws : DrawsRange drawLowest := by
  constructor
  · intro low high h
    exact ⟨_, if_neg h⟩
  · intro low high h
    refine ⟨low, if_pos h, Val.le_self ?_, h.1⟩
    intro hnan
    exact absurd h.1 (by simp [hnan])

end BinDist

end Maybenot

import Maybenot.Lib.Ieee
import Maybenot.Lib.Run

namespace Maybenot
open Lib

/-- A value the source formats into an error text. -/
inductive Arg where
  | f64 (x : F64)
  | f32 (x : F32)
  | usize (n : Nat)
deriving DecidableEq

/-- An error text; `%` stands where the source formats the next of `args`. -/
structure Message where
  text : String
  args : List Arg
deriving DecidableEq

inductive Error where
  | paddingLimit
  | blockingLimit
  | machine (why : Message)
deriving DecidableEq

/-- The `Display` of an error. -/
def Error.display : Error → Message
  | .paddingLimit => ⟨"max_padding_frac has to be between [0.0, 1.0]", []⟩
  | .blockingLimit => ⟨"max_blocking_frac has to be between [0.0, 1.0]", []⟩
  | .machine why => ⟨"invalid machine: " ++ why.text, why.args⟩

def fail (text : String) (args : List Arg := []) : Except Error Unit :=
  .error (.machine ⟨text, args⟩)

def distMinProbability : F64 := Flt.ofRat (1 / 1000000000)

inductive DistType where
  | uniform (low high : F64)
  | normal (mean stdev : F64)
  | skewNormal (location scale shape : F64)
  | logNormal (mu sigma : F64)
  | binomial (trials : Nat) (probability : F64)
  | geometric (probability : F64)
  | pareto (scale shape : F64)
  | poisson (lambda : F64)
  | weibull (scale shape : F64)
  | gamma (scale shape : F64)
  | beta (alpha beta : F64)
deriving DecidableEq

/-- What the `rand` and `rand_distr` crates give: a uniform draw from `[0, 1)`, the
check a distribution's constructor makes of its parameters, and a sample. -/
class RngCore (R : Type) where
  genUnit : R → { q : Rat // 0 ≤ q ∧ q < 1 } × R
  construct : DistType → Except String Unit
  sample : DistType → R → F64 × R

/-- A generator whose every draw is zero. -/
instance : RngCore Unit where
  genUnit r := (⟨0, le_rfl, by decide⟩, r)
  construct _ := .ok ()
  sample _ r := (Flt.ofRat 0, r)

structure Dist where
  dist : DistType
  start : F64
  max : F64
deriving DecidableEq

namespace Dist

/-- The checks of the parameters that the crate's constructor makes. -/
def construct (R : Type) [RngCore R] (d : DistType) : Except Error Unit :=
  match RngCore.construct R d with
  | .ok _ => .ok ()
  | .error e => fail e

def validate (R : Type) [RngCore R] (d : Dist) : Except Error Unit :=
  match d.dist with
  | .uniform low high => do
    if low.val = .nan ∨ high.val = .nan then
      fail "for Uniform dist, got low or high as NaN"
    if low.isInfinite || high.isInfinite then
      fail "for Uniform dist, got low or high as infinite"
    if high.val.lt low.val then
      fail "for Uniform dist, got low > high"
    if (high.sub low).isInfinite then
      fail "for Uniform dist, range hig - low overflows"
  | .binomial trials probability => do
    if probability.val ≠ .fin 0 ∧ probability.val.lt distMinProbability.val then
      fail ("for Binomial dist, probability 0.0 > % < DIST_MIN_PROBABILITY (1e-9), " ++
        "error due to too slow sampling") [.f64 probability]
    if trials > 1000000000 then
      fail "for Binomial dist, % trials > 1e9, error due to too slow sampling" [.usize trials]
    construct R d.dist
  | .geometric probability => do
    if probability.val ≠ .fin 0 ∧ probability.val.lt distMinProbability.val then
      fail ("for Geometric dist, probability 0.0 > % < DIST_MIN_PROBABILITY (1e-9), " ++
        "error due to too slow sampling") [.f64 probability]
    construct R d.dist
  | .poisson lambda => do
    if (Flt.ofRat (10 ^ 42) : F64).val.lt lambda.val then
      fail "for Poisson dist, lambda % > 1e42, error due to too slow sampling" [.f64 lambda]
    construct R d.dist
  | _ => construct R d.dist

/-- Without a draw when a uniform distribution has one value only. -/
def distSample [RngCore R] (d : Dist) (rng : R) : F64 × R :=
  match d.dist with
  | .uniform low high =>
    if low.val = high.val ∧ low.val ≠ .nan then (low, rng) else RngCore.sample d.dist rng
  | _ => RngCore.sample d.dist rng

def sample [RngCore R] (d : Dist) (rng : R) : F64 × R :=
  let (drawn, rng) := d.distSample rng
  let r := (Flt.ofRat 0).max (drawn.add d.start)
  if (Val.fin 0).lt d.max.val then (r.min d.max, rng) else (r, rng)

/-- A distribution whose samples are all one value. -/
def Constant (R : Type) [RngCore R] (d : Dist) : Prop :=
  ∃ v, ∀ rng : R, (d.sample rng).1 = v

end Dist

end Maybenot

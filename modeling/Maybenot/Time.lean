import Maybenot.Lib.Ieee

namespace Maybenot
open Lib

/-- The trait of durations a framework may be run with. -/
class Time.Duration (D : Type) where
  zero : D
  fromMicros : Nat → D
  isZero : D → Bool
  divDurationF64 : D → D → Val
  add : D → D → D
  lt : D → D → Bool

/-- The trait of points in time a framework may be run with. -/
class Time.Instant (T : Type) (D : outParam Type) where
  saturatingDurationSince : T → T → D

/-- A `std::time::Instant`, in nanoseconds from some origin. There is no first and no last one:
the bounds that a platform sets, and the panics beyond them, are those of `Ranged`. -/
abbrev Instant := Int

/-- A `std::time::Duration`, in nanoseconds, without the bound `Duration.max`. -/
abbrev Duration := Nat

/-- The time since an earlier instant, zero when it is later. -/
def Instant.durationSince (t earlier : Instant) : Duration := (t - earlier).toNat

def Duration.fromMicros (n : Nat) : Duration := n * 1000

def Duration.fromMillis (n : Nat) : Duration := n * 1000000

instance : Time.Duration Duration where
  zero := 0
  fromMicros := Duration.fromMicros
  isZero d := d == 0
  divDurationF64 d e := Val.div d e
  add d e := d + e
  lt d e := decide (d < e)

instance : Time.Instant Instant Duration where
  saturatingDurationSince := Instant.durationSince

end Maybenot

import Maybenot.Parsing

namespace Maybenot.V1
open Lib Bytes

/-- A distribution of version 1, by its type code. One with a single parameter has it as
`param1`, and there is none for the code zero. -/
structure Dist where
  code : Fin 11
  param1 : F64
  param2 : F64
  start : F64
  max : F64

/-- A state of a machine with `n` states. -/
structure State (n : Nat) where
  duration : Dist
  limit : Dist
  timeout : Dist
  actionIsBlock : Bool
  bypass : Bool
  replace : Bool
  limitIncludesNonpadding : Bool
  /-- A row of probabilities for each event, and one that belongs to no event; after the `n`
  states a row has the cancel and the end of the machine. -/
  nextState : Fin 8 → Vector F64 (n + 2)

structure Machine where
  allowedPaddingPackets : UInt64
  maxPaddingFrac : F64
  allowedBlockedMicrosec : UInt64
  maxBlockingFrac : F64
  includeSmallPackets : Bool
  numStates : UInt16
  states : Vector (State numStates.toNat) numStates.toNat

section Layout

def float (x : F64) : List UInt8 := encode 8 x.bits.toNat

def flag (b : Bool) : List UInt8 := [if b then 1 else 0]

def row (xs : List F64) : List UInt8 := xs.flatMap float

def Dist.enc (d : Dist) : List UInt8 :=
  encode 2 d.code ++ (float d.param1 ++ (float d.param2 ++ (float d.start ++ float d.max)))

def State.rows (s : State n) : List (List F64) :=
  (List.finRange 8).map fun i => (s.nextState i).toList

def State.enc (s : State n) : List UInt8 :=
  s.duration.enc ++ (s.limit.enc ++ (s.timeout.enc ++ (flag s.actionIsBlock ++ (flag s.bypass ++
    (flag s.replace ++ (flag s.limitIncludesNonpadding ++ s.rows.flatMap row))))))

/-- A machine of version 1 in bytes, without those of the version. -/
def Machine.enc (m : Machine) : List UInt8 :=
  encode 8 m.allowedPaddingPackets.toNat ++ (float m.maxPaddingFrac ++
    (encode 8 m.allowedBlockedMicrosec.toNat ++ (float m.maxBlockingFrac ++
      (flag m.includeSmallPackets ++ (encode 2 m.numStates.toNat ++
        m.states.toList.flatMap State.enc)))))

end Layout

section Meaning

/-- The number of trials, which is stored as a float. -/
def Dist.trials (d : Dist) : Nat :=
  match d.param1.val with
  | .fin q => q.num.toNat
  | _ => 0

def Dist.type (d : Dist) : Option DistType :=
  match d.code with
  | 0 => none
  | 1 => some (.uniform d.param1 d.param2)
  | 2 => some (.normal d.param1 d.param2)
  | 3 => some (.logNormal d.param1 d.param2)
  | 4 => some (.binomial d.trials d.param2)
  | 5 => some (.geometric d.param1)
  | 6 => some (.pareto d.param1 d.param2)
  | 7 => some (.poisson d.param1)
  | 8 => some (.weibull d.param1 d.param2)
  | 9 => some (.gamma d.param1 d.param2)
  | 10 => some (.beta d.param1 d.param2)

def Dist.toDist (d : Dist) : Option Maybenot.Dist :=
  d.type.map fun dist => { dist, start := d.start, max := d.max }

/-- The action of a state, for what its distributions are taken to be. -/
def State.action (dist : Dist → Option Maybenot.Dist) (s : State n) : Option Action :=
  (dist s.timeout).bind fun timeout =>
    if s.actionIsBlock then
      (dist s.duration).map fun duration =>
        .blockOutgoing s.bypass s.replace timeout duration (dist s.limit)
    else some (.sendPadding s.bypass s.replace timeout (dist s.limit))

/-- The row of an event, if version 1 has the event. -/
def rowOf : Event → Option (Fin 8)
  | .normalRecv => some 0
  | .paddingRecv => some 1
  | .normalSent => some 2
  | .paddingSent => some 3
  | .blockingBegin => some 4
  | .blockingEnd => some 5
  | .limitReached => some 6
  | _ => none

/-- The target of a probability, if that is not zero. -/
def target (n : Nat) (x : F64 × Nat) : Option Trans :=
  if x.1.val = .fin 0 then none else some ⟨if x.2 < n then x.2 else stateEnd, asF32 x.1⟩

def targets (n : Nat) (xs : List F64) : List Trans := xs.zipIdx.filterMap (target n)

def State.transitions (s : State n) (e : Event) : List Trans :=
  match rowOf e with
  | some i => targets n (s.nextState i).toList
  | none => []

def State.toState (s : State n) : Maybenot.State :=
  { Maybenot.State.new s.transitions with action := s.action Dist.toDist }

/-- The machine that a machine of version 1 stands for. -/
def Machine.toMachine (m : Machine) : Maybenot.Machine where
  allowedPaddingPackets := m.allowedPaddingPackets.toNat
  maxPaddingFrac := m.maxPaddingFrac
  allowedBlockedMicrosec := m.allowedBlockedMicrosec.toNat
  maxBlockingFrac := m.maxBlockingFrac
  states := m.states.toList.map State.toState

end Meaning

/-- The trials of a binomial distribution are an integer. -/
def Dist.Integral (d : Dist) : Prop :=
  d.code = 4 → ∃ n : Nat, n ≤ u64Max ∧ d.param1.val = .fin n

/-- A state that version 2 has too: one that blocks has a duration, and there is no cancel. -/
structure State.Valid (s : State n) : Prop where
  integral : ∀ d ∈ [s.duration, s.limit, s.timeout], d.Integral
  duration : s.actionIsBlock = true → s.timeout.code ≠ 0 → s.duration.code ≠ 0
  noCancel : ∀ i : Fin 8, i ≠ 7 → (s.nextState i)[n].val = .fin 0

def Machine.Valid (m : Machine) : Prop := ∀ s ∈ m.states.toList, s.Valid

/-- The distributions that the action of a state has. -/
def State.used (s : State n) : List Dist :=
  if s.timeout.code = 0 then []
  else s.timeout :: s.limit :: if s.actionIsBlock then [s.duration] else []

/-- A distribution whose parameter the parser does not lose: not a geometric or a Poisson
distribution, unless its parameter is 0.0. -/
def Dist.Kept (d : Dist) : Prop := d.code = 5 ∨ d.code = 7 → d.param1 = Flt.ofRat 0

instance (d : Dist) : Decidable d.Kept := inferInstanceAs (Decidable (_ → _))

end Maybenot.V1

import Maybenot.Proofs.Admitted
import Maybenot.Proofs.Padding
import Maybenot.Proofs.Total
import Mathlib.Algebra.Order.Field.Rat
import Mathlib.Tactic.Linarith

namespace Maybenot
open Lib

/-- The exact length of durations, which all operations respect. -/
class Time.Measured (D : Type) [Time.Duration D] where
  length : D → ℚ
  length_injective : Function.Injective length
  length_zero : length (Time.Duration.zero : D) = 0
  length_add : ∀ d e : D, length (Time.Duration.add d e) = length d + length e
  isZero_eq : ∀ d : D, Time.Duration.isZero d = decide (length d = 0)
  lt_eq : ∀ d e : D, Time.Duration.lt d e = decide (length d < length e)
  div_eq : ∀ d e : D, Time.Duration.divDurationF64 d e = Val.div (length d) (length e)

/-- Points in time as exact numbers, and the exact time between them. -/
class Time.Clocked (T : Type) (D : outParam Type) [Time.Duration D] [Time.Instant T D]
    [Time.Measured D] where
  clock : T → ℚ
  length_since : ∀ t u : T,
    Time.Measured.length (Time.Instant.saturatingDurationSince t u : D) =
      max (clock t - clock u) 0

instance : Time.Measured Duration where
  length d := d
  length_injective := Nat.cast_injective
  length_zero := Nat.cast_zero
  length_add := Nat.cast_add
  isZero_eq d := by
    change (d == 0) = decide ((d : ℚ) = 0)
    simp only [Nat.cast_eq_zero]
    rfl
  lt_eq d e := by
    change decide (d < e) = decide ((d : ℚ) < e)
    simp
  div_eq _ _ := rfl

instance : Time.Clocked Instant Duration where
  clock t := t
  length_since t u := by
    have h : ((Instant.durationSince t u : Nat) : Int) = max (t - u) 0 := Int.toNat_eq_max _
    change ((Instant.durationSince t u : Nat) : ℚ) = max ((t : ℚ) - u) 0
    exact_mod_cast congrArg (Int.cast : Int → ℚ) h

open Time.Measured Time.Clocked

/-- How long blocking has lasted, as told from the events alone: all that has ended, and
since when it lasts now. -/
structure Blockage (T : Type) where
  ended : ℚ
  since : Option T

namespace Blockage

variable {T D : Type} [Time.Duration D] [Time.Instant T D] [Time.Measured D] [Time.Clocked T D]

/-- Only the first `BlockingBegin` counts, and only the first `BlockingEnd` after it. -/
def after (b : Blockage T) (e : TriggerEvent) (now : T) : Blockage T :=
  match e, b.since with
  | .blockingBegin _, none => { b with since := some now }
  | .blockingEnd, some t => ⟨b.ended + (clock now - clock t), none⟩
  | _, _ => b

/-- The total length of the intervals of blocking until `now`. -/
def total (b : Blockage T) (now : T) : ℚ :=
  match b.since with
  | none => b.ended
  | some t => b.ended + (clock now - clock t)

@[simp] theorem total_none (x : ℚ) (now : T) : total ⟨x, none⟩ now = x := rfl

@[simp] theorem total_some (x : ℚ) (t now : T) :
    total ⟨x, some t⟩ now = x + (clock now - clock t) := rfl

/-- An event does not change how long blocking has lasted when it comes. -/
theorem total_after (b : Blockage T) (e : TriggerEvent) (now : T) :
    (b.after e now).total now = b.total now := by
  obtain ⟨x, since⟩ := b
  cases since with
  | none => cases e <;> simp [after]
  | some t => cases e <;> simp [after]

/-- Blocking lasts no longer than time goes on. -/
theorem total_le {b : Blockage T} {last now : T} (h : clock last ≤ clock now) :
    b.total now ≤ b.total last + (clock now - clock last) := by
  obtain ⟨x, since⟩ := b
  cases since with
  | none =>
    rw [total_none, total_none]
    linarith
  | some t =>
    rw [total_some, total_some]
    linarith

end Blockage

/-- A limit on the share of the time with blocking. A fraction of zero sets none. -/
def BelowShare (frac : F64) (blocked elapsed : ℚ) : Prop :=
  ∃ q, frac.val = .fin q ∧ (q = 0 ∨ elapsed = 0 ∨ blocked / elapsed < q)

namespace Framework

variable {R T D : Type}

/-- A framework in use from `start` on, at the time of its `last` call. -/
structure Watched (R T D : Type) where
  framework : Framework R T D
  start : T
  last : T
  blockage : Blockage T

variable [RngCore R] [Time.Duration D] [Time.Instant T D] [Time.Measured D] [Time.Clocked T D]

/-- A framework just made, with fractions for all limits on blocking. -/
def Watched.Initial (s : Watched R T D) : Prop :=
  ∃ machines padding blocking rng,
    Framework.new machines padding blocking s.start rng = .ok (.ok s.framework) ∧
    (∀ m ∈ machines, isFraction m.maxBlockingFrac = true) ∧ s.last = s.start ∧
    s.blockage = ⟨0, none⟩

/-- A call with one event, not before the last one, that returns some actions. -/
def Watched.Call (s : Watched R T D) (actions : List (TriggerAction D)) (s' : Watched R T D) :
    Prop :=
  ∃ e, clock s.last ≤ clock s'.last ∧
    s.framework.triggerEvents [e] s'.last = .ok (actions, s'.framework) ∧
    s'.start = s.start ∧ s'.blockage = s.blockage.after e s'.last

/-- The blocked time in the framework's own books. -/
def blockedBy (f : Framework R T D) (now : T) : ℚ :=
  length f.blockingDuration +
    if f.blockingActive then length (Time.Instant.saturatingDurationSince now f.blockingStarted)
    else 0

/-- The books are right. -/
structure Booked (s : Watched R T D) : Prop where
  ended : length s.framework.blockingDuration = s.blockage.ended
  since : s.blockage.since =
    if s.framework.blockingActive then some s.framework.blockingStarted else none
  started : s.framework.blockingActive = true →
    clock s.framework.blockingStarted ≤ clock s.last
  atMost : s.blockage.total s.last ≤ clock s.last - clock s.start
  ordered : clock s.start ≤ clock s.last
  start : s.framework.frameworkStart = s.start
  current : s.framework.currentTime = s.last
  actions : s.framework.actions.length = s.framework.machines.length
  runtime : s.framework.runtime.length = s.framework.machines.length
  machines : ∀ (mi : Nat) (m : Machine) (rt : MachineRuntime T D),
    s.framework.machines[mi]? = some m → s.framework.runtime[mi]? = some rt →
    rt.blockingDuration = s.framework.blockingDuration ∧ rt.machineStart = s.start ∧
    rt.allowedBlockedMicrosec = Time.Duration.fromMicros m.allowedBlockedMicrosec
  fraction : isFraction s.framework.maxBlockingFrac = true

omit [RngCore R] in
theorem Booked.blockage_eq {s : Watched R T D} (h : Booked s) :
    s.blockage = ⟨length s.framework.blockingDuration,
      if s.framework.blockingActive then some s.framework.blockingStarted else none⟩ := by
  rw [h.ended, ← h.since]

omit [RngCore R] in
theorem Booked.blockedBy {s : Watched R T D} (h : Booked s) {now : T}
    (hnow : clock s.last ≤ clock now) : s.framework.blockedBy now = s.blockage.total now := by
  rw [h.blockage_eq]
  unfold Framework.blockedBy
  cases hactive : s.framework.blockingActive with
  | false => simp
  | true =>
    have hstarted := (h.started hactive).trans hnow
    simp [length_since, hstarted]

omit [RngCore R] in
/-- What an event does to the books of the framework. -/
theorem Booked.recorded {s : Watched R T D} (h : Booked s) (e : TriggerEvent) {now : T}
    (hnow : clock s.last ≤ clock now) :
    let g := (s.framework.startCall now).recorded e
    length g.blockingDuration = (s.blockage.after e now).ended ∧
      (s.blockage.after e now).since = (if g.blockingActive then some g.blockingStarted else none) ∧
      (g.blockingActive = true → clock g.blockingStarted ≤ clock now) := by
  rw [h.blockage_eq]
  cases hactive : s.framework.blockingActive with
  | false => cases e <;> simp [Framework.recorded, startCall, Blockage.after, hactive]
  | true =>
    have hstarted := (h.started hactive).trans hnow
    cases e <;>
      simp [Framework.recorded, startCall, Blockage.after, hactive, blockedFor, length_add,
        length_since, hstarted]

omit [RngCore R] [Time.Measured D] [Time.Clocked T D] in
theorem recorded_rest (f : Framework R T D) (e : TriggerEvent) :
    (f.recorded e).currentTime = f.currentTime ∧ (f.recorded e).frameworkStart = f.frameworkStart ∧
      (f.recorded e).maxBlockingFrac = f.maxBlockingFrac := by
  cases e with
  | blockingBegin _ | blockingEnd =>
    simp only [Framework.recorded]
    split <;> exact ⟨rfl, rfl, rfl⟩
  | _ => exact ⟨rfl, rfl, rfl⟩

omit [RngCore R] [Time.Clocked T D] in
/-- The blocked time of a machine stays that of the framework. -/
theorem recorded_blocked {f : Framework R T D} {rt : MachineRuntime T D} (mi : Nat)
    (e : TriggerEvent) (h : rt.blockingDuration = f.blockingDuration) :
    let rt' := if e.concerns mi then rt.recorded e f.blockedFor else rt
    rt'.blockingDuration = (f.recorded e).blockingDuration ∧ rt'.machineStart = rt.machineStart ∧
      rt'.allowedBlockedMicrosec = rt.allowedBlockedMicrosec := by
  cases e with
  | blockingEnd =>
    have hzero (d : D) (hd : Time.Duration.isZero d = true) :
        Time.Duration.add f.blockingDuration d = f.blockingDuration := by
      apply length_injective
      rw [isZero_eq, decide_eq_true_eq] at hd
      rw [length_add, hd, add_zero]
    simp only [TriggerEvent.concerns, MachineRuntime.recorded, Framework.recorded, if_true, h]
    cases hactive : f.blockingActive with
    | false => simp [blockedFor, hactive, isZero_eq, length_zero, h]
    | true =>
      by_cases hz : Time.Duration.isZero f.blockedFor = true
      · simp [hz, hzero _ hz, h]
      · simp [hz]
  | blockingBegin machine =>
    simp only [MachineRuntime.recorded, Framework.recorded, ite_self]
    split <;> simp [h]
  | _ =>
    simp only [MachineRuntime.recorded, Framework.recorded]
    split <;> simp [h]

theorem Booked.call {s s' : Watched R T D} {actions : List (TriggerAction D)} (h : Booked s)
    (hcall : s.Call actions s') : Booked s' := by
  obtain ⟨e, hnow, htrigger, hstart, hblockage⟩ := hcall
  obtain ⟨hended, hsince, hstarted⟩ := h.recorded e hnow
  obtain ⟨hcurrent, hframe, hfrac⟩ := recorded_rest (s.framework.startCall s'.last) e
  have hfix := call_fixed htrigger
  simp only [Framework.fixed, Prod.mk.injEq] at hfix
  obtain ⟨_, hcurrent', _, _, _, hfrac', hduration, hstarted', hactive, hframe'⟩ := hfix
  obtain ⟨hmach, hruntime, hactions⟩ := shape_eq (triggerEvents_shape htrigger)
  refine ⟨?_, ?_, ?_, ?_, ?_, ?_, ?_, ?_, ?_, ?_, ?_⟩
  · rw [hduration, hblockage]
    exact hended
  · rw [hblockage, hsince, hactive, hstarted']
  · rw [hactive, hstarted']
    exact hstarted
  · rw [hblockage, hstart, Blockage.total_after]
    have hle := Blockage.total_le (b := s.blockage) hnow
    have hmost := h.atMost
    linarith
  · rw [hstart]
    exact h.ordered.trans hnow
  · rw [hframe', hframe, hstart]
    exact h.start
  · exact hcurrent'.trans hcurrent
  · rw [hactions, hmach, h.actions]
  · rw [hruntime, hmach, h.runtime]
  · intro mi m rt' hm hrt'
    rw [hmach] at hm
    have hmi := (List.getElem?_eq_some_iff.mp hm).1
    obtain ⟨rt, hrt⟩ := exists_getElem? (h.runtime ▸ hmi)
    obtain ⟨hblocked, hstart', hallowed⟩ := h.machines mi m rt hm hrt
    have hacc := (call_admits hrt (h.actions ▸ hmi) htrigger).account
    rw [hrt', Option.map_some, Option.some.injEq] at hacc
    simp only [accounting, Prod.mk.injEq] at hacc
    obtain ⟨_, _, hacc1, hacc2, hacc3⟩ := hacc
    obtain ⟨h1, h2, h3⟩ := recorded_blocked (f := s.framework.startCall s'.last) mi e hblocked
    refine ⟨?_, ?_, ?_⟩
    · rw [hacc1, h1, hduration]
    · rw [hacc2, h2, hstart', hstart]
    · rw [hacc3, h3, hallowed]
  · rw [hfrac', hfrac]
    exact h.fraction

theorem Booked.initial {machines : List Machine} {padding blocking : F64} {rng : R}
    {s : Watched R T D}
    (hnew : Framework.new machines padding blocking s.start rng = .ok (.ok s.framework))
    (hlast : s.last = s.start) (hblockage : s.blockage = ⟨0, none⟩) : Booked s := by
  obtain ⟨hwf, _, hmach⟩ := new_wellFormed hnew
  have hacc := new_accounting hnew
  obtain ⟨_, hfrac, _, started, hs, hfresh⟩ := new_ok.mp hnew
  refine ⟨?_, ?_, ?_, ?_, hlast ▸ le_rfl, ?_, ?_, hwf.actions, hwf.runtime, ?_, ?_⟩
  · rw [hfresh, hblockage]
    exact length_zero
  · rw [hfresh, hblockage]
    rfl
  · rw [hfresh]
    intro hactive
    exact absurd hactive (by simp [fresh])
  · rw [hblockage, hlast, Blockage.total_none]
    linarith
  · rw [hfresh]
    rfl
  · rw [hfresh, hlast]
    rfl
  · intro mi m rt hm hrt
    rw [hmach] at hm
    have hmi := congrArg (·[mi]?) hacc
    simp only [List.getElem?_map, hrt, hm, Option.map_some, Option.some.injEq, accounting,
      Prod.mk.injEq] at hmi
    obtain ⟨_, _, hblocked, hstart, hallowed⟩ := hmi
    refine ⟨?_, hstart, hallowed⟩
    rw [hblocked, hfresh]
    rfl
  · rw [hfresh]
    exact hfrac

omit [RngCore R] [Time.Measured D] [Time.Clocked T D] [Time.Duration D] [Time.Instant T D] in
/-- A limit on the share of blocking that the check does not find reached. -/
theorem belowShare_of {x : F64} {blocked elapsed : ℚ} (hx : isFraction x = true)
    (h : ¬ ((Val.fin 0).lt x.val && x.val.le (Val.div blocked elapsed)) = true) :
    BelowShare x blocked elapsed := by
  obtain ⟨q, hq, hpos⟩ := isFraction_fin hx
  refine ⟨q, hq, ?_⟩
  by_cases he : elapsed = 0
  · exact .inr (.inl he)
  · simp only [hq, Val.lt, Val.div, he, if_false, Val.le, Bool.and_eq_true, decide_eq_true_eq,
      not_and, not_le] at h
    rcases hpos.eq_or_lt with hzero | hlt
    · exact .inl hzero.symm
    · exact .inr (.inr (h hlt))

omit [RngCore R] [Time.Clocked T D] in
/-- Blocking that does not replace other blocking is let through within the limits only. -/
theorem belowLimitBlocking_shares {f : Framework R T D} {rt : MachineRuntime T D} {m : Machine}
    {st : State} {timeout duration : Dist} {limit : Option Dist} {bypass replace : Bool}
    (hact : st.action = some (.blockOutgoing bypass replace timeout duration limit))
    (hm : isFraction m.maxBlockingFrac = true) (hf : isFraction f.maxBlockingFrac = true)
    (hblocked : rt.blockingDuration = f.blockingDuration)
    (hno : ¬ (replace = true ∧ f.blockingActive = true))
    (h : f.belowLimitBlocking rt m st = true) :
    f.blockedBy f.currentTime < length rt.allowedBlockedMicrosec ∨
      (BelowShare m.maxBlockingFrac (f.blockedBy f.currentTime)
        (length (Time.Instant.saturatingDurationSince f.currentTime rt.machineStart)) ∧
      BelowShare f.maxBlockingFrac (f.blockedBy f.currentTime)
        (length (Time.Instant.saturatingDurationSince f.currentTime f.frameworkStart))) := by
  have htotal : length (if f.blockingActive then Time.Duration.add f.blockingDuration
      (Time.Instant.saturatingDurationSince f.currentTime f.blockingStarted)
      else f.blockingDuration) = f.blockedBy f.currentTime := by
    unfold blockedBy
    split
    · exact length_add _ _
    · rw [add_zero]
  unfold belowLimitBlocking at h
  simp only [hact, hblocked] at h
  rw [if_neg (by simpa using hno)] at h
  rw [lt_eq, htotal] at h
  simp only [div_eq, htotal] at h
  split at h
  · rename_i hallowed
    exact .inl (of_decide_eq_true hallowed)
  split at h
  · exact absurd h (by simp)
  rename_i hown
  split at h
  · exact absurd h (by simp)
  rename_i hall
  exact .inr ⟨belowShare_of hm hown, belowShare_of hf hall⟩

/-- The books on blocking are right at every time after the last call, and blocking that is
asked for is within the limits. -/
theorem blocking_accounted {s : Watched R T D}
    (h : Reach Watched.Initial (fun s s' => ∃ actions, s.Call actions s') s) :
    (∀ now, clock s.last ≤ clock now →
      s.framework.blockedBy now = s.blockage.total now ∧
      s.blockage.total now ≤ clock now - clock s.start) ∧
    (∀ rt ∈ s.framework.runtime, rt.blockingDuration = s.framework.blockingDuration) ∧
    ∀ s' actions, s.Call actions s' → ∀ timeout duration bypass replace mi,
      TriggerAction.blockOutgoing timeout duration bypass replace mi ∈ actions →
      ¬ (replace = true ∧ s'.framework.blockingActive = true) →
      ∃ m, s'.framework.machines[mi]? = some m ∧
        (s'.blockage.total s'.last <
            length (Time.Duration.fromMicros m.allowedBlockedMicrosec : D) ∨
          (BelowShare m.maxBlockingFrac (s'.blockage.total s'.last)
              (clock s'.last - clock s'.start) ∧
            BelowShare s'.framework.maxBlockingFrac (s'.blockage.total s'.last)
              (clock s'.last - clock s'.start))) := by
  obtain ⟨hbooked, hfractions⟩ : Booked s ∧
      ∀ m ∈ s.framework.machines, isFraction m.maxBlockingFrac = true := by
    refine h.invariant (P := fun s => Booked s ∧
      ∀ m ∈ s.framework.machines, isFraction m.maxBlockingFrac = true) ?_ ?_
    · rintro s ⟨machines, padding, blocking, rng, hnew, hfracs, hlast, hblockage⟩
      obtain ⟨_, _, hmach⟩ := new_wellFormed hnew
      exact ⟨.initial hnew hlast hblockage, hmach.symm ▸ hfracs⟩
    · rintro s s' ⟨hs, hfracs⟩ ⟨actions, hcall⟩
      obtain ⟨_, _, htrigger, _⟩ := id hcall
      obtain ⟨hmach, _⟩ := shape_eq (triggerEvents_shape htrigger)
      exact ⟨hs.call hcall, hmach.symm ▸ hfracs⟩
  refine ⟨?_, ?_, ?_⟩
  · intro now hnow
    refine ⟨hbooked.blockedBy hnow, ?_⟩
    have hle := Blockage.total_le (b := s.blockage) hnow
    have hmost := hbooked.atMost
    linarith
  · intro rt hrt
    obtain ⟨mi, hmi⟩ := List.getElem?_of_mem hrt
    obtain ⟨m, hm⟩ := exists_getElem? (hbooked.runtime ▸ (List.getElem?_eq_some_iff.mp hmi).1)
    exact (hbooked.machines mi m rt hm hmi).1
  · intro s' actions hcall timeout duration bypass replace mi ha hno
    have hbooked' := hbooked.call hcall
    obtain ⟨e, hnow, htrigger, hstart, hblockage⟩ := hcall
    have hslot := returned_slot htrigger ha
    have hmi : mi < s'.framework.machines.length :=
      hbooked'.actions ▸ (List.getElem?_eq_some_iff.mp hslot).1
    obtain ⟨hmach, hruntime, hactions⟩ := shape_eq (triggerEvents_shape htrigger)
    obtain ⟨rt, hrt⟩ := exists_getElem? (hbooked.runtime ▸ hmach ▸ hmi)
    have hadmits := call_admits hrt (hbooked.actions ▸ hmach ▸ hmi) htrigger
    obtain ⟨rt', hrt', hacc'⟩ := Option.map_eq_some_iff.mp hadmits.account
    obtain ⟨rt1, m, st, act, rng, hacc, hm, hst, hact, hbelow, haction⟩ := hadmits.slot _ hslot
    obtain ⟨hblocked, hmstart, hallowed⟩ := hbooked'.machines mi m rt' hm hrt'
    have hmfrac := hfractions m (hmach ▸ List.mem_of_getElem? hm)
    rw [← hacc'] at hacc
    simp only [accounting, Prod.mk.injEq] at hacc
    obtain ⟨_, _, hacc1, hacc2, hacc3⟩ := hacc
    refine ⟨m, hm, ?_⟩
    cases act with
    | blockOutgoing bypass' replace' timeout' duration' limit =>
      simp only [triggerAction, TriggerAction.blockOutgoing.injEq] at haction
      obtain ⟨_, _, rfl, rfl, _⟩ := haction
      have hlimit : s'.framework.belowLimitBlocking rt1 m st = true := by
        simpa [belowActionLimits, Machine.stateAt, at?_ok.mpr hst, hact] using hbelow
      have hshares := belowLimitBlocking_shares hact hmfrac hbooked'.fraction
        (hacc1.trans hblocked) hno hlimit
      have htotal := hbooked'.blockedBy le_rfl
      have hpos : 0 ≤ clock s'.last - clock s'.start := sub_nonneg.mpr hbooked'.ordered
      rw [hbooked'.current, htotal, hacc2, hmstart, hacc3, hallowed, hbooked'.start, length_since,
        max_eq_left hpos] at hshares
      exact hshares
    | cancel _ | sendPadding _ _ _ _ | updateTimer _ _ _ =>
      exact absurd haction (by simp [triggerAction])

/-- A machine that blocks whenever a packet is sent, for half of the time at most. -/
def halfBlocker : Machine where
  allowedPaddingPackets := 0
  maxPaddingFrac := ⟨0⟩
  allowedBlockedMicrosec := 0
  maxBlockingFrac := Flt.ofRat (1 / 2)
  states := [
    .new fun
      | .normalSent => certain 1
      | _ => [],
    { State.new (fun | .normalSent => certain 1 | _ => []) with
      action := some (.blockOutgoing false false ⟨.uniform ⟨0⟩ ⟨0⟩, ⟨0⟩, ⟨0⟩⟩
        ⟨.uniform ⟨0⟩ ⟨0⟩, ⟨0⟩, ⟨0⟩⟩ none) }]

/-- After ten of twenty nanoseconds with blocking it may block again at thirty. -/
theorem half_blocker_accounted : ∃ s s' : Watched Unit Instant Duration, ∃ actions,
    Reach Watched.Initial (fun s s' => ∃ actions, s.Call actions s') s ∧
    s.framework.blockedBy 20 = s.blockage.total 20 ∧ s.blockage.total 20 = 10 ∧
    s.Call actions s' ∧ TriggerAction.blockOutgoing 0 0 false false 0 ∈ actions ∧
    ∃ m, s'.framework.machines[0]? = some m ∧
      (s'.blockage.total s'.last <
          length (Time.Duration.fromMicros m.allowedBlockedMicrosec : Duration) ∨
        (BelowShare m.maxBlockingFrac (s'.blockage.total s'.last)
            (clock s'.last - clock s'.start) ∧
          BelowShare s'.framework.maxBlockingFrac (s'.blockage.total s'.last)
            (clock s'.last - clock s'.start))) := by
  have hrun : ((Framework.new [halfBlocker] ⟨0⟩ ⟨0⟩ (0 : Instant) ()).toOption.bind
      fun r => r.toOption.bind fun f => (f.triggerEvents [.normalSent] 5).toOption.bind
        fun r1 => (r1.2.triggerEvents [.blockingBegin 0] 10).toOption.bind
          fun r2 => (r2.2.triggerEvents [.blockingEnd] 20).toOption.bind
            fun r3 => (r3.2.triggerEvents [.normalSent] 30).toOption.map
              fun r4 => (r4.1, r4.2.blockingActive)) =
      some ([.blockOutgoing 0 0 false false 0], false) := by decide +kernel
  simp only [Option.bind_eq_some_iff, Option.map_eq_some_iff, toOption_eq_some,
    Prod.mk.injEq] at hrun
  obtain ⟨_, hnew, f, rfl, ⟨_, f1⟩, h1, ⟨_, f2⟩, h2, ⟨_, f3⟩, h3, ⟨_, f4⟩, h4, rfl, hactive⟩ := hrun
  have hlater {t u : Instant} (h : t ≤ u) : clock t ≤ clock u := Int.cast_le.mpr h
  let s0 : Watched Unit Instant Duration := ⟨f, 0, 0, ⟨0, none⟩⟩
  let s1 : Watched Unit Instant Duration := ⟨f1, 0, 5, s0.blockage.after .normalSent 5⟩
  let s2 : Watched Unit Instant Duration := ⟨f2, 0, 10, s1.blockage.after (.blockingBegin 0) 10⟩
  let s3 : Watched Unit Instant Duration := ⟨f3, 0, 20, s2.blockage.after .blockingEnd 20⟩
  let s4 : Watched Unit Instant Duration := ⟨f4, 0, 30, s3.blockage.after .normalSent 30⟩
  have hinitial : Watched.Initial s0 :=
    ⟨[halfBlocker], ⟨0⟩, ⟨0⟩, (), hnew, by decide +kernel, rfl, rfl⟩
  have hfirst : ∃ actions, s0.Call actions s1 :=
    ⟨_, .normalSent, hlater (t := 0) (u := 5) (by decide), h1, rfl, rfl⟩
  have hbegin : ∃ actions, s1.Call actions s2 :=
    ⟨_, .blockingBegin 0, hlater (t := 5) (u := 10) (by decide), h2, rfl, rfl⟩
  have hend : ∃ actions, s2.Call actions s3 :=
    ⟨_, .blockingEnd, hlater (t := 10) (u := 20) (by decide), h3, rfl, rfl⟩
  have hcall : s3.Call [.blockOutgoing 0 0 false false 0] s4 :=
    ⟨.normalSent, hlater (t := 20) (u := 30) (by decide), h4, rfl, rfl⟩
  have hreach : Reach Watched.Initial (fun s s' => ∃ actions, s.Call actions s') s3 :=
    .next (.next (.next (.start hinitial) hfirst) hbegin) hend
  obtain ⟨htotal, -, hlimits⟩ := blocking_accounted hreach
  have hten : s3.blockage.total 20 = 10 := by
    change (0 : ℚ) + (((20 : Int) : ℚ) - ((10 : Int) : ℚ)) = 10
    norm_num
  exact ⟨s3, s4, _, hreach, (htotal 20 le_rfl).1, hten, hcall, List.mem_singleton_self _,
    hlimits _ _ hcall 0 0 false false 0 (List.mem_singleton_self _) (by simp)⟩

end Framework

end Maybenot

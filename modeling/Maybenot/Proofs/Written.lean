import Maybenot.Ffi
import Maybenot.Proofs.Chain

namespace Maybenot
open Lib

/-- A day in microseconds. -/
def dayMicros : Nat := 24 * 60 * 60 * 1000 * 1000

namespace TriggerAction

/-- The timeout and the duration of an action, as far as it has them. -/
def times : TriggerAction D → List D
  | .cancel .. => []
  | .sendPadding timeout .. => [timeout]
  | .blockOutgoing timeout duration .. => [timeout, duration]
  | .updateTimer duration .. => [duration]

/-- The times of an action are whole microseconds, and no more than a day. -/
def WithinDay [Time.Duration D] (a : TriggerAction D) : Prop :=
  ∀ d ∈ a.times, ∃ n, n ≤ dayMicros ∧ d = Time.Duration.fromMicros n

end TriggerAction

section Sampling

variable {R : Type} [RngCore R]

theorem maxSampledTimeout_val : maxSampledTimeout.val = .fin dayMicros := by decide +kernel

/-- Whatever is drawn, and whatever a distribution adds to it or caps it with, what is sampled
is at most the cap. -/
theorem sampleCapped_le {d : Dist} {cap : F64} {n : Nat} (hcap : cap.val = .fin n) (rng : R) :
    (sampleCapped d cap rng).1 ≤ n := by
  apply Val.roundToU64_le
  rw [← hcap]
  apply Flt.min_le
  rw [hcap]
  exact fun h => Val.noConfusion h

theorem sampleTimeout_le (a : Action) (rng : R) : (a.sampleTimeout rng).1 ≤ dayMicros := by
  cases a with
  | sendPadding | blockOutgoing => exact sampleCapped_le maxSampledTimeout_val rng
  | cancel | updateTimer => exact Nat.zero_le _

theorem sampleDuration_le (a : Action) (rng : R) : (a.sampleDuration rng).1 ≤ dayMicros := by
  cases a with
  | blockOutgoing | updateTimer => exact sampleCapped_le maxSampledTimeout_val rng
  | cancel | sendPadding => exact Nat.zero_le _

theorem triggerAction_withinDay [Time.Duration D] (mi : Nat) (action : Action) (rng : R) :
    (Framework.triggerAction (D := D) mi action rng).1.WithinDay := by
  intro d hd
  cases action with
  | cancel timer => exact absurd hd List.not_mem_nil
  | sendPadding bypass replace timeout limit =>
    let action := Action.sendPadding bypass replace timeout limit
    change d ∈ [Time.Duration.fromMicros (action.sampleTimeout rng).1] at hd
    exact ⟨_, sampleTimeout_le action rng, List.mem_singleton.mp hd⟩
  | blockOutgoing bypass replace timeout duration limit =>
    let action := Action.blockOutgoing bypass replace timeout duration limit
    change d ∈ [Time.Duration.fromMicros (action.sampleTimeout rng).1,
      Time.Duration.fromMicros (action.sampleDuration (action.sampleTimeout rng).2).1] at hd
    rcases List.mem_pair.mp hd with hd | hd
    · exact ⟨_, sampleTimeout_le action rng, hd⟩
    · exact ⟨_, sampleDuration_le action _, hd⟩
  | updateTimer replace duration limit =>
    let action := Action.updateTimer replace duration limit
    change d ∈ [Time.Duration.fromMicros (action.sampleDuration rng).1] at hd
    exact ⟨_, sampleDuration_le action rng, List.mem_singleton.mp hd⟩

end Sampling

namespace Framework

variable {R T D : Type}

/-- The actions in the places of the machines are in the order of the machines. -/
theorem filterMap_increasing {xs : List (Option (TriggerAction D))} {k : Nat}
    (h : ∀ j a, xs[j]? = some (some a) → a.machine = k + j) :
    ((xs.filterMap id).map (·.machine)).Pairwise (· < ·) ∧
      ∀ a ∈ xs.filterMap id, k ≤ a.machine := by
  induction xs generalizing k with
  | nil => exact ⟨.nil, fun a ha => absurd ha List.not_mem_nil⟩
  | cons x xs ih =>
    have hrest : ∀ j a, xs[j]? = some (some a) → a.machine = k + 1 + j := by
      intro j a ha
      rw [h (j + 1) a ha]
      omega
    obtain ⟨hpairwise, hge⟩ := ih hrest
    cases x with
    | none => exact ⟨hpairwise, fun a ha => (Nat.le_succ k).trans (hge a ha)⟩
    | some b =>
      have hb : b.machine = k := h 0 b rfl
      constructor
      · apply List.Pairwise.cons _ hpairwise
        intro i hi
        obtain ⟨a, ha, rfl⟩ := List.mem_map.mp hi
        change b.machine < a.machine
        rw [hb]
        exact hge a ha
      · intro a ha
        rcases List.mem_cons.mp ha with rfl | ha
        · exact hb.ge
        · exact (Nat.le_succ k).trans (hge a ha)

variable [RngCore R] [Time.Duration D] [Time.Instant T D]

/-- What is said of the actions that a call returns. -/
structure Returns (f f' : Framework R T D) (actions : List (TriggerAction D)) : Prop where
  increasing : (actions.map (·.machine)).Pairwise (· < ·)
  stored : ∀ mi (a : TriggerAction D), f'.actions[mi]? = some (some a) → a.machine = mi
  own : ∀ a ∈ actions, a.machine < f.machines.length ∧ f'.actions[a.machine]? = some (some a)
  withinDay : ∀ a ∈ actions, a.WithinDay

theorem call_returns {f f' : Framework R T D} (hf : WellFormed f) {events : List TriggerEvent}
    {now : T} {actions : List (TriggerAction D)}
    (h : f.triggerEvents events now = .ok (actions, f')) : Returns f f' actions := by
  have hlabelled := call_labelled h
  obtain ⟨_, _, _, hactions⟩ := triggerEvents_ok h
  constructor
  · rw [hactions]
    apply (filterMap_increasing (k := 0) _).1
    intro j a ha
    rw [Nat.zero_add]
    exact hlabelled j a ha
  · exact hlabelled
  · intro a ha
    have hslot := returned_slot h ha
    refine ⟨?_, hslot⟩
    rw [← hf.actions, ← (shape_eq (triggerEvents_shape h)).2.2]
    exact (List.getElem?_eq_some_iff.mp hslot).1
  · intro a ha
    exact call_holds (fun mi action rng => triggerAction_withinDay mi action rng) h a.machine a
      (returned_slot h ha)

omit [RngCore R] [Time.Instant T D] in
/-- There are no more actions than machines. -/
theorem Returns.length_le {f f' : Framework R T D} {actions : List (TriggerAction D)}
    (h : Returns f f' actions) : actions.length ≤ f.machines.length := by
  have hnodup : (actions.map (·.machine)).Nodup := h.increasing.imp Nat.ne_of_lt
  have hsub : actions.map (·.machine) ⊆ List.range f.machines.length := by
    intro mi hmi
    obtain ⟨a, ha, rfl⟩ := List.mem_map.mp hmi
    exact List.mem_range.mpr (h.own a ha).1
  have hle := (List.subperm_of_subset hnodup hsub).length_le
  rwa [List.length_map, List.length_range] at hle

end Framework

theorem convertDuration_inj {d d' : Duration} (h : convertDuration d = convertDuration d') :
    d = d' := by
  obtain ⟨hsecs, hnanos⟩ := MaybenotDuration.mk.inj h
  rw [← Nat.div_add_mod d 1000000000, hsecs, hnanos, Nat.div_add_mod]

/-- The conversion of an action loses nothing. -/
theorem convertAction_inj {a a' : TriggerAction Duration} (h : convertAction a = convertAction a') :
    a = a' := by
  cases a <;> cases a' <;> simp only [convertAction, MaybenotAction.cancel.injEq,
    MaybenotAction.sendPadding.injEq, MaybenotAction.blockOutgoing.injEq,
    MaybenotAction.updateTimer.injEq, reduceCtorEq] at h
  · obtain ⟨rfl, htimer⟩ := h
    rename_i timer timer'
    congr 1
    revert htimer
    cases timer <;> cases timer' <;> decide
  · obtain ⟨rfl, htimeout, rfl, rfl⟩ := h
    rw [convertDuration_inj htimeout]
  · obtain ⟨rfl, htimeout, rfl, rfl, hduration⟩ := h
    rw [convertDuration_inj htimeout, convertDuration_inj hduration]
  · obtain ⟨rfl, hduration, rfl⟩ := h
    rw [convertDuration_inj hduration]

/-- A buffer with places for all actions gets all of them. -/
theorem writeActions_all {actions : List MaybenotAction} {outs : List (Option MaybenotAction)}
    (h : actions.length ≤ outs.length) :
    writeActions actions outs =
      (actions.length, actions.map some ++ outs.drop actions.length) := by
  induction actions generalizing outs with
  | nil => cases outs <;> rfl
  | cons action actions ih =>
    cases outs with
    | nil => exact absurd h (Nat.not_succ_le_zero _)
    | cons out outs =>
      rw [writeActions, ih (Nat.le_of_succ_le_succ h)]
      rfl

/-- All returned actions are written to a buffer with a place for each machine, and counted. -/
theorem MaybenotFramework.onEvents_complete {R : Type} [RngCore R] {this : MaybenotFramework R}
    (hf : this.framework.Reachable) (now : Instant) (events : List MaybenotEvent)
    {buffer : List (Option MaybenotAction)}
    (hbuffer : this.framework.machines.length ≤ buffer.length) :
    ∃ actions f', this.framework.triggerEvents (events.map convertEvent) now =
        .ok (actions, f') ∧ actions.length ≤ this.framework.machines.length ∧
      this.onEvents now events buffer =
        .ok ((actions.length, (actions.map convertAction).map some ++
          buffer.drop actions.length), ⟨f', events.map convertEvent⟩) := by
  obtain ⟨hwf, hsent⟩ := hf.wellFormed
  obtain ⟨actions, f', hcall, _, _⟩ :=
    Framework.triggerEvents_total hwf hsent (events.map convertEvent) now
  have hle := (Framework.call_returns hwf hcall).length_le
  have hroom : (actions.map convertAction).length ≤ buffer.length := by
    rw [List.length_map]
    exact hle.trans hbuffer
  have hwrite := writeActions_all hroom
  rw [List.length_map] at hwrite
  refine ⟨actions, f', hcall, hle, (bind_eq hcall).trans ?_⟩
  change Except.ok (writeActions (actions.map convertAction) buffer, _) = _
  rw [hwrite]

/-- The returned actions are well formed, and all of them are written to a buffer with a place
for each machine. -/
theorem returned_actions_written (R : Type) [RngCore R] :
    (∀ (T D : Type) [Time.Duration D] [Time.Instant T D] (f : Framework R T D), f.Reachable →
      ∀ (events : List TriggerEvent) (now : T), ∃ actions f',
        f.triggerEvents events now = .ok (actions, f') ∧ f.Returns f' actions) ∧
    ∀ this : MaybenotFramework R, this.framework.Reachable →
      ∀ (now : Instant) (events : List MaybenotEvent) (buffer : List (Option MaybenotAction)),
        buffer.length = this.framework.machines.length → ∃ actions f',
          this.framework.triggerEvents (events.map convertEvent) now = .ok (actions, f') ∧
          this.onEvents now events buffer =
            .ok ((actions.length, (actions.map convertAction).map some ++
              buffer.drop actions.length), ⟨f', events.map convertEvent⟩) := by
  constructor
  · intro T D _ _ f hf events now
    obtain ⟨hwf, hsent⟩ := hf.wellFormed
    obtain ⟨actions, f', hcall, _, _⟩ := Framework.triggerEvents_total hwf hsent events now
    exact ⟨actions, f', hcall, Framework.call_returns hwf hcall⟩
  · intro this hf now events buffer hbuffer
    obtain ⟨actions, f', hcall, _, hevents⟩ :=
      MaybenotFramework.onEvents_complete hf now events hbuffer.ge
    exact ⟨actions, f', hcall, hevents⟩

/-- A machine that blocks for as long as it may at every event. -/
def hog : Machine :=
  .free [{ State.new (fun _ => certain 0) with
    action := some (.blockOutgoing true true ⟨.uniform ⟨0⟩ ⟨0⟩, ⟨0⟩, ⟨0⟩⟩
      ⟨.uniform ⟨0⟩ ⟨0⟩, Flt.ofRat (10 ^ 30), ⟨0⟩⟩ none) }]

/-- Two such machines: each blocks for a day at most. -/
theorem two_hogs_written : ∃ (this : MaybenotFramework Unit)
    (actions : List (TriggerAction Duration)) (f' : Framework Unit Instant Duration),
    this.framework.Reachable ∧ this.framework.Returns f' actions ∧
    this.onEvents 0 [⟨.normalSent, 0⟩] [none, none] =
      .ok ((2, [some (.blockOutgoing 0 ⟨0, 0⟩ true true ⟨86400, 0⟩),
        some (.blockOutgoing 1 ⟨0, 0⟩ true true ⟨86400, 0⟩)]), ⟨f', [.normalSent]⟩) := by
  have hrun : ((Framework.play [hog, hog] []).bind fun f =>
      (f.triggerEvents [.normalSent] 0).toOption.map fun r =>
        (decide (f.machines.length = 2), r.1.map convertAction)) =
      some (true, [.blockOutgoing 0 ⟨0, 0⟩ true true ⟨86400, 0⟩,
        .blockOutgoing 1 ⟨0, 0⟩ true true ⟨86400, 0⟩]) := by decide +kernel
  simp only [Option.bind_eq_some_iff, Option.map_eq_some_iff, toOption_eq_some,
    Prod.mk.injEq, decide_eq_true_eq] at hrun
  obtain ⟨f, hf, ⟨actions, f'⟩, hcall, hlen, hactions⟩ := hrun
  have hreach := Framework.play_reachable hf
  obtain ⟨_, _, hcall1, hreturns⟩ :=
    (returned_actions_written Unit).1 Instant Duration f hreach [.normalSent] 0
  obtain ⟨_, _, hcall2, hwritten⟩ :=
    (returned_actions_written Unit).2 ⟨f, []⟩ hreach 0 [⟨.normalSent, 0⟩] [none, none] hlen.symm
  obtain ⟨rfl, rfl⟩ := Prod.mk.inj (Except.ok.inj (hcall.symm.trans hcall1))
  obtain ⟨rfl, rfl⟩ := Prod.mk.inj (Except.ok.inj (hcall.symm.trans hcall2))
  have hcount : actions.length = 2 := by
    have hmap := congrArg List.length hactions
    rwa [List.length_map] at hmap
  refine ⟨⟨f, []⟩, actions, f', hreach, hreturns, ?_⟩
  rw [hwritten, hactions, hcount]
  rfl

namespace MaybenotFramework

variable {R : Type} [RngCore R]

/-- The instances that calls come to from a start. -/
def Running : MaybenotFramework R → Prop :=
  Reach
    (fun this => ∃ lib machinesStr padding blocking now rng,
      start lib machinesStr padding blocking now rng = .ok (.ok this))
    fun this this' => ∃ now events buffer written,
      this.onEvents now events buffer = .ok (written, this')

theorem start_initial {lib : Codecs} {machinesStr : List Char} {padding blocking : F64}
    {now : Instant} {rng : R} {this : MaybenotFramework R}
    (h : start lib machinesStr padding blocking now rng = .ok (.ok this)) :
    this.framework.Initial := by
  unfold start at h
  split at h
  · cases pure_ok.mp h
  · next machines _ =>
    obtain ⟨result, hnew, h⟩ := bind_ok.mp h
    cases result with
    | error e => cases pure_ok.mp h
    | ok framework =>
      cases pure_ok.mp h
      exact ⟨_, _, _, _, _, hnew⟩

/-- An instance in use runs a framework in use. -/
theorem Running.reachable {this : MaybenotFramework R} (h : Running this) :
    this.framework.Reachable := by
  apply h.invariant (P := fun this => this.framework.Reachable)
  · intro this ⟨_, _, _, _, _, _, hstart⟩
    exact .start (start_initial hstart)
  · intro this this' hreach ⟨now, events, _, _, hevents⟩
    obtain ⟨⟨actions, f'⟩, hcall, h⟩ := bind_ok.mp hevents
    cases pure_ok.mp h
    exact .next hreach ⟨_, now, actions, trivial, hcall⟩

end MaybenotFramework

/-- A caller whose buffer has places enough gets all actions of an instance in use, and their
number. -/
theorem maybenotOnEvents_complete {R : Type} [RngCore R] {this : MaybenotFramework R}
    (h : this.Running) (now : Instant) (events : List MaybenotEvent)
    {buffer : List (Option MaybenotAction)} (n : Option Nat)
    (hbuffer : maybenotNumMachines (some this) ≤ buffer.length) :
    ∃ actions f', this.framework.triggerEvents (events.map convertEvent) now =
        .ok (actions, f') ∧
      maybenotOnEvents (some this) now (some events) ⟨some buffer, some n⟩ =
        .ok (.ok, ⟨some ((actions.map convertAction).map some ++ buffer.drop actions.length),
          some (some actions.length)⟩, some ⟨f', events.map convertEvent⟩) := by
  have hroom : this.framework.machines.length ≤
      (buffer.take this.framework.machines.length).length := by
    rw [List.length_take]
    exact Nat.le_min.mpr ⟨Nat.le_refl _, hbuffer⟩
  obtain ⟨actions, f', hcall, hle, hevents⟩ :=
    MaybenotFramework.onEvents_complete h.reachable now events hroom
  refine ⟨actions, f', hcall, (bind_eq hevents).trans ?_⟩
  have hrest : (buffer.take this.framework.machines.length).drop actions.length ++
      buffer.drop this.framework.machines.length = buffer.drop actions.length := by
    rw [← List.drop_append_of_le_length (hle.trans hroom), List.take_append_drop]
  change Except.ok (MaybenotResult.ok, Output.mk (some (_ ++ _ ++ _)) _, _) = _
  rw [List.append_assoc, hrest]

end Maybenot

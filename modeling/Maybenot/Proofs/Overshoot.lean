import Maybenot.Proofs.Admitted
import Maybenot.Proofs.Padding
import Maybenot.Proofs.Total

namespace Maybenot
open Lib

/-- A ratio limit on padding, if set, is a positive number. -/
theorem Machine.validate_paddingFrac {R : Type} [RngCore R] {m : Machine} {u : Unit}
    (h : m.validate R = .ok u) (hset : (Val.fin 0).lt m.maxPaddingFrac.val = true) :
    ∃ q, m.maxPaddingFrac.val = .fin q ∧ 0 < q := by
  simp only [Machine.validate, check_ok] at h
  obtain ⟨hrange, _⟩ := h
  cases hv : m.maxPaddingFrac.val with
  | nan => simp [hv] at hset
  | inf neg => cases neg <;> simp [hv, Val.lt] at hset hrange
  | fin q =>
    rw [hv] at hset
    exact ⟨q, rfl, of_decide_eq_true hset⟩

namespace Framework

variable {R T D : Type}

/-- A framework in use, and the machines that have asked for padding which is not sent. -/
structure Use (R T D : Type) where
  framework : Framework R T D
  asked : MachineId → Prop

/-- How far the padding of a machine may have gone: to the budget, one packet at least, or
one packet past the ratio `q`. -/
def OncePast (m : Machine) (q : ℚ) (rt : MachineRuntime T D) : Prop :=
  rt.paddingSent ≤ max m.allowedPaddingPackets 1 ∨
    (rt.paddingSent : ℚ) - 1 < q * (rt.paddingSent + rt.normalSent - 1)

/-- One more packet may be sent. -/
def Room (m : Machine) (q : ℚ) (rt : MachineRuntime T D) : Prop :=
  rt.paddingSent < max m.allowedPaddingPackets 1 ∨
    (rt.paddingSent : ℚ) < q * (rt.paddingSent + rt.normalSent)

/-- A normal packet leaves the padding where it is. -/
theorem OncePast.normal {m : Machine} {q : ℚ} {rt rt' : MachineRuntime T D} (hq : 0 < q)
    (h : OncePast m q rt) (hp : rt'.paddingSent = rt.paddingSent)
    (hn : rt.normalSent ≤ rt'.normalSent) : OncePast m q rt' := by
  unfold OncePast
  rw [hp]
  rcases h with h | h
  · exact .inl h
  · right
    have hn' : (rt.normalSent : ℚ) ≤ rt'.normalSent := by exact_mod_cast hn
    refine h.trans_le (mul_le_mul_of_nonneg_left ?_ hq.le)
    linarith

theorem Room.normal {m : Machine} {q : ℚ} {rt rt' : MachineRuntime T D} (hq : 0 < q)
    (h : Room m q rt) (hp : rt'.paddingSent = rt.paddingSent)
    (hn : rt.normalSent ≤ rt'.normalSent) : Room m q rt' := by
  unfold Room
  rw [hp]
  rcases h with h | h
  · exact .inl h
  · right
    have hn' : (rt.normalSent : ℚ) ≤ rt'.normalSent := by exact_mod_cast hn
    refine h.trans_le (mul_le_mul_of_nonneg_left ?_ hq.le)
    linarith

/-- The packet that there was room for. -/
theorem Room.padding {m : Machine} {q : ℚ} {rt rt' : MachineRuntime T D} (h : Room m q rt)
    (hp : rt'.paddingSent = rt.paddingSent + 1) (hn : rt'.normalSent = rt.normalSent) :
    OncePast m q rt' := by
  unfold OncePast
  rw [hp, hn]
  rcases h with h | h
  · exact .inl h
  · right
    push_cast
    linarith

/-- The check of the limits lets a machine pad only where there is room. -/
theorem belowLimitPadding_room {f : Framework R T D} {rt : MachineRuntime T D} {m : Machine}
    {q : ℚ} (hv : m.maxPaddingFrac.val = .fin q) (hq : 0 < q)
    (h : f.belowLimitPadding rt m = true) : Room m q rt := by
  unfold belowLimitPadding at h
  dsimp only at h
  have hset : (Val.fin 0).lt m.maxPaddingFrac.val = true := by
    rw [hv]
    exact decide_eq_true hq
  rw [hset] at h
  split at h
  · rename_i hbudget
    exact .inl (lt_max_of_lt_left hbudget)
  simp only [Bool.true_and, decide_eq_true_eq] at h
  split at h
  · rename_i htotal
    left
    have hnone : rt.paddingSent = 0 := by omega
    rw [hnone]
    exact lt_max_of_lt_right Nat.zero_lt_one
  rename_i htotal
  split at h
  · exact absurd h (by simp)
  rename_i hratio
  right
  have hpos : (0 : ℚ) < rt.normalSent + rt.paddingSent := by
    have hn : 0 < rt.normalSent + rt.paddingSent := Nat.pos_of_ne_zero htotal
    exact_mod_cast hn
  push_cast at hratio
  simp only [hv, Val.div, hpos.ne', if_false, Val.le, decide_eq_true_eq, not_le] at hratio
  rw [div_lt_iff₀ hpos] at hratio
  linarith

variable [RngCore R] [Time.Duration D]

/-- The packet counts of a machine after an event. -/
theorem recorded_packets (rt : MachineRuntime T D) (e : TriggerEvent) (mi : Nat) (blocked : D) :
    let rt' := if e.concerns mi then rt.recorded e blocked else rt
    rt.normalSent ≤ rt'.normalSent ∧
      (e ≠ .paddingSent mi → rt'.paddingSent = rt.paddingSent) ∧
      (e = .paddingSent mi →
        rt'.paddingSent = rt.paddingSent + 1 ∧ rt'.normalSent = rt.normalSent) := by
  cases e with
  | paddingSent machine =>
    by_cases h : machine = mi <;> simp [TriggerEvent.concerns, MachineRuntime.recorded, h]
  | blockingEnd =>
    simp only [TriggerEvent.concerns, MachineRuntime.recorded, if_true]
    split <;> simp
  | timerBegin machine | timerEnd machine =>
    simp only [MachineRuntime.recorded]
    split <;> simp
  | _ => simp [TriggerEvent.concerns, MachineRuntime.recorded]

variable [Time.Instant T D]

/-- A call with one event. Padding is sent only where it was asked for, and that uses up
what was asked; older requests may be superseded by newer ones or not. -/
def Obeys (s s' : Use R T D) : Prop :=
  ∃ e now actions, s.framework.triggerEvents [e] now = .ok (actions, s'.framework) ∧
    (∀ mi, e = .paddingSent mi → s.asked mi) ∧
    ∀ mi, s'.asked mi →
      (∃ a ∈ actions, a.isPadding = true ∧ a.machine = mi) ∨ (s.asked mi ∧ e ≠ .paddingSent mi)

/-- A framework just made, which has asked for nothing. -/
def Use.Initial (s : Use R T D) : Prop := Framework.Initial s.framework ∧ ∀ mi, ¬ s.asked mi

/-- The invariant of a machine with a ratio limit `q`. -/
structure Bounded (s : Use R T D) (mi : Nat) (m : Machine) (q : ℚ) : Prop where
  machine : s.framework.machines[mi]? = some m
  runtime : ∃ rt, s.framework.runtime[mi]? = some rt ∧ OncePast m q rt ∧
    (s.asked mi → Room m q rt)
  slot : mi < s.framework.actions.length

theorem Bounded.call {s s' : Use R T D} {mi : Nat} {m : Machine} {q : ℚ}
    (hv : m.maxPaddingFrac.val = .fin q) (hq : 0 < q) (h : Bounded s mi m q) (hs : Obeys s s') :
    Bounded s' mi m q := by
  obtain ⟨e, now, actions, hcall, hsent, hasked⟩ := hs
  obtain ⟨rt, hrt, hpast, hroom⟩ := h.runtime
  have hadmits := call_admits hrt h.slot hcall
  obtain ⟨hmach, _, hlen⟩ := shape_eq (triggerEvents_shape hcall)
  obtain ⟨rt', hrt', hacc⟩ := Option.map_eq_some_iff.mp hadmits.account
  simp only [accounting, Prod.mk.injEq] at hacc
  obtain ⟨hpad, hnorm, _⟩ := hacc
  obtain ⟨hmore, hkeep, hone⟩ := recorded_packets rt e mi (s.framework.startCall now).blockedFor
  rw [← hnorm] at hmore hone
  rw [← hpad] at hkeep hone
  refine ⟨hmach ▸ h.machine, ⟨rt', hrt', ?_, ?_⟩, hlen ▸ h.slot⟩
  · by_cases he : e = .paddingSent mi
    · exact (hroom (hsent mi he)).padding (hone he).1 (hone he).2
    · exact hpast.normal hq (hkeep he) hmore
  · intro hask
    rcases hasked mi hask with ⟨a, ha, hpads, hfor⟩ | ⟨hold, he⟩
    · -- the padding was let through on the counts that the machine has now
      have hslot := returned_slot hcall ha
      rw [hfor] at hslot
      obtain ⟨rt1, m1, st, act, rng, hacc, hm1, hst, hact, hbelow, rfl⟩ := hadmits.slot a hslot
      rw [hmach, h.machine] at hm1
      obtain rfl := Option.some.inj hm1
      obtain ⟨b, r, t, l, rfl⟩ := Padded.triggerAction_pads hpads
      have hlimit : s'.framework.belowLimitPadding rt1 m = true := by
        simpa [belowActionLimits, Machine.stateAt, at?_ok.mpr hst, hact] using hbelow
      have hroom1 := belowLimitPadding_room hv hq hlimit
      simp only [accounting, Prod.mk.injEq] at hacc
      apply hroom1.normal hq (hpad.trans hacc.1.symm)
      rw [hnorm, hacc.2.1]
    · exact (hroom hold).normal hq (hkeep he) hmore

/-- Padding that is only sent where it was asked for goes at most one packet past the limits
of its machine. -/
theorem padding_overshoots_once {s : Use R T D} (h : Reach Use.Initial Obeys s) {mi : Nat}
    {m : Machine} {rt : MachineRuntime T D} (hm : s.framework.machines[mi]? = some m)
    (hset : (Val.fin 0).lt m.maxPaddingFrac.val = true)
    (hrt : s.framework.runtime[mi]? = some rt) :
    ∃ q, m.maxPaddingFrac.val = .fin q ∧
      (rt.paddingSent ≤ max m.allowedPaddingPackets 1 ∨
        (rt.paddingSent : ℚ) - 1 < q * (rt.paddingSent + rt.normalSent - 1)) := by
  have hall : ∀ mi m, s.framework.machines[mi]? = some m →
      (Val.fin 0).lt m.maxPaddingFrac.val = true →
      ∃ q, m.maxPaddingFrac.val = .fin q ∧ 0 < q ∧ Bounded s mi m q := by
    refine h.invariant (P := fun s => ∀ mi m, s.framework.machines[mi]? = some m →
      (Val.fin 0).lt m.maxPaddingFrac.val = true →
      ∃ q, m.maxPaddingFrac.val = .fin q ∧ 0 < q ∧ Bounded s mi m q) ?_ ?_
    · intro s ⟨⟨machines, padding, blocking, now, rng, hnew⟩, hnone⟩ mi m hm hset
      obtain ⟨_, _, hvalid, _⟩ := new_ok.mp hnew
      obtain ⟨hwf, _, rfl⟩ := new_wellFormed hnew
      obtain ⟨q, hv, hq⟩ := Machine.validate_paddingFrac (hvalid m (List.mem_of_getElem? hm)) hset
      have hmi := (List.getElem?_eq_some_iff.mp hm).1
      obtain ⟨rt, hrt⟩ := exists_getElem? (hwf.runtime ▸ hmi)
      have hacc := congrArg (·[mi]?) (new_accounting hnew)
      simp only [List.getElem?_map, hrt, hm, Option.map_some, Option.some.injEq] at hacc
      refine ⟨q, hv, hq, hm, ⟨rt, hrt, .inl ?_, fun hask => absurd hask (hnone mi)⟩,
        hwf.actions ▸ hmi⟩
      have hzero : rt.paddingSent = 0 := congrArg (·.1) hacc
      rw [hzero]
      exact Nat.zero_le _
    · intro s s' ih hstep mi m hm hset
      obtain ⟨_, _, _, hcall, _⟩ := id hstep
      have hmach := (shape_eq (triggerEvents_shape hcall)).1
      obtain ⟨q, hv, hq, hbound⟩ := ih mi m (hmach ▸ hm) hset
      exact ⟨q, hv, hq, hbound.call hv hq hstep⟩
  obtain ⟨q, hv, _, hbound⟩ := hall mi m hm hset
  obtain ⟨rt', hrt', hpast, _⟩ := hbound.runtime
  obtain rfl := Option.some.inj (hrt.symm.trans hrt')
  exact ⟨q, hv, hpast⟩

/-- A machine that may pad once without regard to its ratio does so. -/
theorem padding_once : ∃ s : Use Unit Instant Duration, Reach Use.Initial Obeys s ∧
    ∃ rt, s.framework.runtime[0]? = some rt ∧ rt.paddingSent = 1 ∧
      ∃ q, (padder 1 (Flt.ofRat (1 / 2)) none).maxPaddingFrac.val = .fin q ∧
        (rt.paddingSent ≤ max 1 1 ∨
          (rt.paddingSent : ℚ) - 1 < q * (rt.paddingSent + rt.normalSent - 1)) := by
  have hrun : ((play [padder 1 (Flt.ofRat (1 / 2)) none] []).bind fun f =>
      (f.triggerEvents [.tunnelRecv] 0).toOption.bind fun r =>
        (r.2.triggerEvents [.paddingSent 0] 0).toOption.bind fun r' =>
          r'.2.runtime[0]?.map fun rt => (r.1, r'.2.machines[0]?, rt.paddingSent)) =
      some ([.sendPadding 0 false false 0], some (padder 1 (Flt.ofRat (1 / 2)) none), 1) := by
    decide +kernel
  simp only [Option.bind_eq_some_iff, Option.map_eq_some_iff, toOption_eq_some,
    Prod.mk.injEq] at hrun
  obtain ⟨f, hf, ⟨asks, f1⟩, h1, ⟨actions, f2⟩, h2, rt, hrt, rfl, hm, hone⟩ := hrun
  have hstart : Reach Use.Initial Obeys (⟨f, fun _ => False⟩ : Use Unit Instant Duration) :=
    .start ⟨play_initial hf, fun _ => id⟩
  have hasked : Reach Use.Initial Obeys (⟨f1, fun mi => mi = 0⟩ : Use Unit Instant Duration) := by
    refine .next hstart ⟨.tunnelRecv, 0, _, h1, fun _ he => absurd he (by simp), ?_⟩
    rintro mi rfl
    exact .inl ⟨_, List.mem_singleton_self _, rfl, rfl⟩
  have hsent : Reach Use.Initial Obeys (⟨f2, fun _ => False⟩ : Use Unit Instant Duration) := by
    refine .next hasked ⟨.paddingSent 0, 0, _, h2, ?_, fun _ => False.elim⟩
    intro mi he
    exact (TriggerEvent.paddingSent.inj he).symm
  exact ⟨_, hsent, rt, hrt, hone, padding_overshoots_once hsent hm (by decide +kernel) hrt⟩

end Framework

end Maybenot

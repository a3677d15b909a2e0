import Maybenot.Proofs.Admitted
import Maybenot.Proofs.Total

namespace Maybenot
open Lib

/-- The states of a machine that passes its checks are apart from the pseudo-states. -/
theorem Machine.validate_states {R : Type} [RngCore R] {m : Machine} {u : Unit}
    (h : m.validate R = .ok u) : m.states.length ≤ stateMax := by
  simp only [Machine.validate, check_ok] at h
  obtain ⟨_, _, _, hmax, _⟩ := h
  exact not_lt.mp hmax

namespace Framework

variable {R T D : Type}

/-- The places of all machines are there, and each machine is in a state of its own or has
ended. -/
structure Safe (f : Framework R T D) : Prop where
  runtime : f.runtime.length = f.machines.length
  actions : f.actions.length = f.machines.length
  states : ∀ (mi : Nat) (rt : MachineRuntime T D), f.runtime[mi]? = some rt →
    ∃ m, f.machines[mi]? = some m ∧
      (rt.currentState = stateEnd ∨ rt.currentState < m.states.length) ∧
      rt.currentState ≠ stateSignal

theorem WellFormed.safe {f : Framework R T D} (h : WellFormed f)
    (hmax : ∀ m ∈ f.machines, m.states.length ≤ stateMax) : Safe f := by
  refine ⟨h.runtime, h.actions, ?_⟩
  intro mi rt hrt
  have hmi : mi < f.machines.length := h.runtime ▸ (List.getElem?_eq_some_iff.mp hrt).1
  obtain ⟨m, hm⟩ := exists_getElem? hmi
  have hstate := h.states mi m rt hm hrt
  refine ⟨m, hm, hstate, ?_⟩
  rcases hstate with hend | hlt
  · rw [hend]
    decide
  · have hle := hmax m (List.mem_of_getElem? hm)
    have hsignal : stateMax < stateSignal := by decide
    omega

/-- No more than `n` packets are counted, neither in all nor by any machine. -/
structure CountsWithin (n : Nat) (f : Framework R T D) : Prop where
  all : f.normalSentPackets + f.paddingSentPackets ≤ n
  machine : ∀ (mi : Nat) (rt : MachineRuntime T D), f.runtime[mi]? = some rt →
    rt.normalSent + rt.paddingSent ≤ n

theorem CountsWithin.keep {n : Nat} {f g : Framework R T D} (h : CountsWithin n f)
    (hfix : g.fixed = f.fixed)
    (hacc : ∀ mi : Nat, g.runtime[mi]?.map accounting = f.runtime[mi]?.map accounting) :
    CountsWithin n g := by
  simp only [Framework.fixed, Prod.mk.injEq] at hfix
  obtain ⟨_, _, _, hnormal, hpadding, _⟩ := hfix
  refine ⟨?_, ?_⟩
  · rw [hnormal, hpadding]
    exact h.all
  · intro mi rt hrt
    have hsame := hacc mi
    rw [hrt] at hsame
    obtain ⟨rt0, hrt0, hacc0⟩ := Option.map_eq_some_iff.mp hsame.symm
    simp only [accounting, Prod.mk.injEq] at hacc0
    obtain ⟨hpad, hnorm, _⟩ := hacc0
    rw [← hpad, ← hnorm]
    exact h.machine mi rt0 hrt0

variable [RngCore R] [Time.Duration D] [Time.Instant T D]

omit [RngCore R] in
/-- An event counts for one packet at most. -/
theorem recorded_sent (f : Framework R T D) (e : TriggerEvent) :
    (f.recorded e).normalSentPackets + (f.recorded e).paddingSentPackets ≤
      f.normalSentPackets + f.paddingSentPackets + 1 := by
  cases e with
  | normalSent | paddingSent _ =>
    simp only [recorded]
    omega
  | blockingBegin _ | blockingEnd =>
    simp only [recorded]
    split <;> exact Nat.le_succ _
  | _ => exact Nat.le_succ _

omit [RngCore R] [Time.Instant T D] in
theorem recorded_own (rt : MachineRuntime T D) (e : TriggerEvent) (mi : Nat) (blocked : D) :
    (if e.concerns mi then rt.recorded e blocked else rt).normalSent +
        (if e.concerns mi then rt.recorded e blocked else rt).paddingSent ≤
      rt.normalSent + rt.paddingSent + 1 := by
  split
  · cases e with
    | normalSent | paddingSent _ =>
      simp only [MachineRuntime.recorded]
      omega
    | blockingEnd =>
      simp only [MachineRuntime.recorded]
      split <;> exact Nat.le_succ _
    | _ => exact Nat.le_succ _
  · exact Nat.le_succ _

theorem processEvent_counts {n : Nat} {f f' : Framework R T D} {e : TriggerEvent}
    (hf : CountsWithin n f) (h : f.processEvent e = .ok f') : CountsWithin (n + 1) f' := by
  have hfix := processEvent_fixed h
  simp only [Framework.fixed, Prod.mk.injEq] at hfix
  obtain ⟨_, _, _, hnormal, hpadding, _⟩ := hfix
  have hlen := (shape_eq (processEvent_shape h)).2.1
  refine ⟨?_, ?_⟩
  · rw [hnormal, hpadding]
    exact (recorded_sent f e).trans (Nat.succ_le_succ hf.all)
  · intro mi rt' hrt'
    obtain ⟨rt, hrt⟩ := exists_getElem? (hlen ▸ (List.getElem?_eq_some_iff.mp hrt').1)
    have hacc := processEvent_account hrt h
    rw [hrt', Option.map_some, Option.some.injEq] at hacc
    simp only [accounting, Prod.mk.injEq] at hacc
    obtain ⟨hpad, hnorm, _⟩ := hacc
    rw [hpad, hnorm]
    exact (recorded_own rt e mi f.blockedFor).trans (Nat.succ_le_succ (hf.machine mi rt hrt))

theorem processEvents_counts {n : Nat} {f f' : Framework R T D} {events : List TriggerEvent}
    (hf : CountsWithin n f) (h : f.processEvents events = .ok f') :
    CountsWithin (n + events.length) f' := by
  induction events generalizing n f with
  | nil =>
    obtain rfl : f = f' := by simpa [processEvents] using h
    exact hf
  | cons e es ih =>
    simp only [processEvents, List.foldlM_cons, bind_ok] at h
    obtain ⟨g, he, hes⟩ := h
    have hcounts := ih (processEvent_counts hf he) hes
    rw [Nat.add_right_comm] at hcounts
    exact hcounts

theorem triggerEvents_counts {n : Nat} {f f' : Framework R T D} {events : List TriggerEvent}
    {now : T} {actions : List (TriggerAction D)} (hf : CountsWithin n f)
    (h : f.triggerEvents events now = .ok (actions, f')) :
    CountsWithin (n + events.length) f' := by
  obtain ⟨f1, h1, hd, _⟩ := triggerEvents_ok h
  have hstart : CountsWithin n (f.startCall now) := ⟨hf.all, hf.machine⟩
  refine deliverSignal_keeps (P := CountsWithin _) ?_ ?_ (processEvents_counts hstart h1) hd
  · intro g hg
    exact hg.keep rfl fun _ => rfl
  · intro g mi c g' hg hmove
    exact hg.keep hmove.frame.fixed hmove.accounts

omit [Time.Instant T D] in
theorem new_counts {machines : List Machine} {padding blocking : F64} {now : T} {rng : R}
    {f : Framework R T D} (h : Framework.new machines padding blocking now rng = .ok (.ok f)) :
    CountsWithin 0 f := by
  have hacc := new_accounting h
  obtain ⟨_, _, _, started, _, rfl⟩ := new_ok.mp h
  refine ⟨Nat.le_refl 0, ?_⟩
  intro mi rt hrt
  have hmi := congrArg (·[mi]?) hacc
  simp only [List.getElem?_map, hrt, Option.map_some] at hmi
  obtain ⟨m, _, hm⟩ := Option.map_eq_some_iff.mp hmi.symm
  simp only [accounting, Prod.mk.injEq] at hm
  omega

/-- A run of any calls does not fail, and it counts a packet for each event at most. -/
theorem run_counts {f : Framework R T D} (hf : WellFormed f) (hs : Sent f) {n : Nat}
    (hc : CountsWithin n f) (calls : List (List TriggerEvent × T)) :
    ∃ actions f', f.run calls = .ok (actions, f') ∧ WellFormed f' ∧
      f'.machines = f.machines ∧ CountsWithin (n + (calls.map (·.1.length)).sum) f' := by
  induction calls generalizing f n with
  | nil => exact ⟨_, f, rfl, hf, rfl, hc⟩
  | cons c cs ih =>
    obtain ⟨actions, g, hcall, hwf, hsent⟩ := triggerEvents_total hf hs c.1 c.2
    have hcounts := triggerEvents_counts hc hcall
    obtain ⟨rest, f', hr, hwf', hmach, hc'⟩ := ih hwf hsent hcounts
    refine ⟨_, f', (bind_eq hcall).trans (bind_eq hr), hwf', ?_, ?_⟩
    · rw [hmach, (shape_eq (triggerEvents_shape hcall)).1]
    · rw [List.map_cons, List.sum_cons, ← Nat.add_assoc]
      exact hc'

/-- However a framework is called, no call fails, every machine stays in its own states, and
in fewer than `2 ^ 63` events no count of packets leaves a `u64`. -/
theorem framework_safe {machines : List Machine} {padding blocking : F64} {now : T} {rng : R}
    {f : Framework R T D} (h : Framework.new machines padding blocking now rng = .ok (.ok f))
    (calls : List (List TriggerEvent × T)) :
    ∃ actions f', f.run calls = .ok (actions, f') ∧ Safe f' ∧
      ((calls.map (·.1.length)).sum < 2 ^ 63 → CountsWithin u64Max f') := by
  obtain ⟨hwf, hsent, hmach⟩ := new_wellFormed h
  obtain ⟨_, _, hvalid, _⟩ := new_ok.mp h
  obtain ⟨actions, f', hr, hwf', hmach', hcounts⟩ := run_counts hwf hsent (new_counts h) calls
  refine ⟨actions, f', hr, hwf'.safe ?_, ?_⟩
  · intro m hm
    rw [hmach', hmach] at hm
    exact Machine.validate_states (hvalid m hm)
  · intro hfew
    have hmax : 0 + (calls.map (·.1.length)).sum ≤ u64Max := by
      unfold u64Max
      omega
    exact ⟨hcounts.all.trans hmax, fun mi rt hrt => (hcounts.machine mi rt hrt).trans hmax⟩

/-- A machine that signals, and an event for a machine that is not there. -/
theorem strange_calls_safe : ∃ f f' : Framework Unit Instant Duration, ∃ actions,
    Framework.new [Machine.free [.new fun _ => certain stateSignal]] ⟨0⟩ ⟨0⟩ 0 () =
      .ok (.ok f) ∧
    f.run [([.normalSent, .paddingSent 7], 0), ([], 3), ([.timerEnd 9], 1)] =
      .ok (actions, f') ∧ Safe f' ∧ CountsWithin u64Max f' := by
  have hnew : ((Framework.new [Machine.free [.new fun _ => certain stateSignal]] ⟨0⟩ ⟨0⟩ 0 () :
      Exec (Except Error (Framework Unit Instant Duration))).toOption.bind
        (·.toOption)).isSome := by decide +kernel
  obtain ⟨f, hf⟩ := Option.isSome_iff_exists.mp hnew
  simp only [Option.bind_eq_some_iff, toOption_eq_some] at hf
  obtain ⟨r, hf, rfl⟩ := hf
  obtain ⟨actions, f', hr, hsafe, hcounts⟩ :=
    framework_safe hf [([.normalSent, .paddingSent 7], 0), ([], 3), ([.timerEnd 9], 1)]
  exact ⟨f, f', actions, hf, hr, hsafe, hcounts (by decide)⟩

end Framework

end Maybenot

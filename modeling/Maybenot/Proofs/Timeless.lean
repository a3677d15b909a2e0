import Maybenot.Proofs.Alongside
import Maybenot.Proofs.Clocks
import Maybenot.Proofs.Limits

namespace Maybenot
open Lib

/-- No state of the machine blocks. -/
def Machine.NeverBlocks (m : Machine) : Prop :=
  ∀ st ∈ m.states, ∀ bypass replace timeout duration limit,
    st.action ≠ some (.blockOutgoing bypass replace timeout duration limit)

variable {R T T' D : Type}

section Untimed

variable [Time.Duration D]

/-- What a machine remembers besides times. -/
def MachineRuntime.untimed (rt : MachineRuntime T D) : MachineRuntime Unit D :=
  { rt with
    blockingDuration := Time.Duration.zero
    machineStart := ()
    allowedBlockedMicrosec := Time.Duration.zero }

/-- The framework without its clock, what it has measured with it and the limit for that. -/
def Framework.untimed (f : Framework R T D) : Framework R Unit D :=
  { f with
    currentTime := ()
    runtime := f.runtime.map MachineRuntime.untimed
    maxBlockingFrac := ⟨0⟩
    blockingDuration := Time.Duration.zero
    blockingStarted := ()
    frameworkStart := () }

end Untimed

namespace Framework

section Pieces

variable [Time.Duration D] (f : Framework R T D)

theorem untimed_setRuntime (mi : Nat) (rt : MachineRuntime T D) :
    (f.setRuntime mi rt).untimed = f.untimed.setRuntime mi rt.untimed := by
  simp [setRuntime, untimed, List.map_set]

theorem untimed_at? (mi : Nat) :
    (at? f.runtime mi).map MachineRuntime.untimed = at? f.untimed.runtime mi :=
  (at?_map _ _ _).symm

omit f in
theorem recorded_untimed {rt : MachineRuntime T D} {rt' : MachineRuntime T' D}
    (h : rt.untimed = rt'.untimed) (e : TriggerEvent) (blocked blocked' : D) :
    (rt.recorded e blocked).untimed = (rt'.recorded e blocked').untimed := by
  have hkeep {T : Type} (rt : MachineRuntime T D) (blocked : D) :
      (rt.recorded .blockingEnd blocked).untimed = rt.untimed := by
    simp only [MachineRuntime.recorded]
    split <;> rfl
  cases e with
  | normalSent =>
    exact congrArg (fun u : MachineRuntime Unit D => { u with normalSent := u.normalSent + 1 }) h
  | paddingSent _ =>
    exact congrArg (fun u : MachineRuntime Unit D => { u with paddingSent := u.paddingSent + 1 }) h
  | blockingEnd => rw [hkeep, hkeep, h]
  | _ => exact h

theorem untimed_recorded [Time.Instant T D] [Time.Instant T' D] {g : Framework R T' D}
    (h : f.untimed = g.untimed) (e : TriggerEvent) :
    (f.recorded e).untimed = (g.recorded e).untimed := by
  have hactive : f.blockingActive = g.blockingActive := congrArg (·.blockingActive) h
  cases e with
  | normalSent =>
    exact congrArg (fun u : Framework R Unit D =>
      { u with normalSentPackets := u.normalSentPackets + 1 }) h
  | paddingSent _ =>
    exact congrArg (fun u : Framework R Unit D =>
      { u with paddingSentPackets := u.paddingSentPackets + 1 }) h
  | blockingBegin _ =>
    simp only [recorded, hactive]
    split
    · exact h
    · exact congrArg (fun u : Framework R Unit D => { u with blockingActive := true }) h
  | blockingEnd =>
    simp only [recorded, hactive]
    split
    · exact congrArg (fun u : Framework R Unit D => { u with blockingActive := false }) h
    · exact h
  | _ => exact h

variable [RngCore R]

theorem untimed_applyCounters (mi : Nat) (rt : MachineRuntime T D) (st : State) :
    ((f.applyCounters mi rt st).1, (f.applyCounters mi rt st).2.untimed) =
      f.untimed.applyCounters mi rt.untimed st := by
  unfold applyCounters
  exact Prod.ext rfl (untimed_setRuntime _ mi _)

end Pieces

/-- Two frameworks with machines that never block, and that differ in times only. -/
structure Untimed [Time.Duration D] (ms : List Machine) (f : Framework R T D)
    (g : Framework R T' D) : Prop where
  same : f.untimed = g.untimed
  machines : f.machines = ms

section Steps

variable [Time.Duration D] {ms : List Machine} {f : Framework R T D} {g : Framework R T' D}

theorem Untimed.rng (h : Untimed ms f g) : f.rng = g.rng := congrArg (·.rng) h.same

theorem Untimed.actions (h : Untimed ms f g) : f.actions = g.actions := congrArg (·.actions) h.same

theorem Untimed.setAction (h : Untimed ms f g) (mi : Nat) (a : Option (TriggerAction D)) :
    Alike (Untimed ms) (f.setAction mi a) (g.setAction mi a) := by
  unfold Framework.setAction
  rw [h.actions]
  split
  · exact .returned ⟨congrArg (fun u : Framework R Unit D =>
      { u with actions := g.actions.set mi a }) h.same, h.machines⟩
  · exact .failed _

variable [Time.Instant T D] [Time.Instant T' D]

/-- Only blocking is limited by times. -/
theorem Untimed.belowActionLimits (h : Untimed ms f g)
    {rt : MachineRuntime T D} {rt' : MachineRuntime T' D} (hrt : rt.untimed = rt'.untimed)
    {m : Machine} (hm : m.NeverBlocks) :
    f.belowActionLimits rt m = g.belowActionLimits rt' m := by
  have hlimit : rt.stateLimit = rt'.stateLimit := congrArg (·.stateLimit) hrt
  have hstate : rt.currentState = rt'.currentState := congrArg (·.currentState) hrt
  have hpadding : f.belowLimitPadding rt m = g.belowLimitPadding rt' m := by
    have hsent : rt.paddingSent = rt'.paddingSent := congrArg (·.paddingSent) hrt
    have hnormal : rt.normalSent = rt'.normalSent := congrArg (·.normalSent) hrt
    have hfrac : f.maxPaddingFrac = g.maxPaddingFrac := congrArg (·.maxPaddingFrac) h.same
    have hall : f.paddingSentPackets = g.paddingSentPackets :=
      congrArg (·.paddingSentPackets) h.same
    have hrest : f.normalSentPackets = g.normalSentPackets := congrArg (·.normalSentPackets) h.same
    unfold Framework.belowLimitPadding
    rw [hsent, hnormal, hlimit, hfrac, hall, hrest]
  unfold Framework.belowActionLimits
  rw [hstate]
  refine bind_same rfl fun st hst => ?_
  have hmem : st ∈ m.states := List.mem_of_getElem? (at?_ok.mp hst)
  cases hact : st.action with
  | none => rfl
  | some action =>
    cases action with
    | blockOutgoing bypass replace timeout duration limit =>
      exact absurd hact (hm st hmem bypass replace timeout duration limit)
    | sendPadding => exact congrArg pure hpadding
    | updateTimer => exact congrArg (fun n => pure (decide (n > 0))) hlimit
    | cancel => rfl

theorem Untimed.recorded (h : Untimed ms f g) (e : TriggerEvent) :
    Untimed ms (f.recorded e) (g.recorded e) := by
  have hmachines := recorded_apart (fun f : Framework R T D => f.machines)
    (fun _ _ _ _ _ _ => rfl) f e
  exact ⟨untimed_recorded f h.same e, hmachines.trans h.machines⟩

variable [RngCore R]

omit [Time.Instant T D] [Time.Instant T' D] in
theorem Untimed.applyCounters (h : Untimed ms f g) (mi : Nat) {rt : MachineRuntime T D}
    {rt' : MachineRuntime T' D} (hrt : rt.untimed = rt'.untimed) (st : State) :
    (f.applyCounters mi rt st).1 = (g.applyCounters mi rt' st).1 ∧
      Untimed ms (f.applyCounters mi rt st).2 (g.applyCounters mi rt' st).2 := by
  have hsame := untimed_applyCounters f mi rt st
  rw [h.same, hrt, ← untimed_applyCounters] at hsame
  obtain ⟨hanswer, hrest⟩ := Prod.mk.inj hsame
  exact ⟨hanswer, hrest, h.machines⟩

/-- Machines that never block do not ask for times. -/
theorem untimed_alongside (hms : ∀ m ∈ ms, m.NeverBlocks) :
    Alongside ms (Untimed ms : Framework R T D → Framework R T' D → Prop)
      (fun rt rt' => rt.untimed = rt'.untimed) where
  machines h := ⟨h.machines, (congrArg (·.machines) h.same).symm.trans h.machines⟩
  signal h := congrArg (·.signalPending) h.same
  length h := by simpa [untimed] using congrArg (·.runtime.length) h.same
  runtimeAt mi h := by
    refine .of_map ?_
    rw [untimed_at?, untimed_at?, h.same]
  current h := congrArg (·.currentState) h
  limit h := congrArg (·.stateLimit) h
  move s h := congrArg (fun u : MachineRuntime Unit D => { u with currentState := s }) h
  relimit n h := congrArg (fun u : MachineRuntime Unit D => { u with stateLimit := n }) h
  note s h := ⟨congrArg (fun u => u.note s) h.same, h.machines⟩
  draw draw h :=
    ⟨congrArg (fun u : Framework R Unit D => { u with rng := draw u.rng }) h.same, h.machines⟩
  sample event h _ _ := congrArg (fun r => (State.sampleState _ event r).1) h.rng
  sampleLimit h _ _ _ := congrArg (fun r => (Action.sampleLimit _ r).1) h.rng
  ask mi h _ _ _ := congrArg (fun r => (triggerAction mi _ r).1) h.rng
  setRuntime mi h hrt := by
    refine ⟨?_, h.machines⟩
    rw [untimed_setRuntime, untimed_setRuntime, h.same, hrt]
  setAction mi a h := h.setAction mi a
  below h hrt hm := h.belowActionLimits hrt (hms _ hm)
  count mi h hrt _ _ := h.applyCounters mi hrt _
  actionAt mi _ _ _ h := by
    rw [h.actions]
    exact (Alike.refl _).imp fun a b h => congrArg _ h
  raise mi _ _ _ h := ⟨congrArg (fun u : Framework R Unit D =>
    { u with signalPending := raiseSignal u.signalPending mi }) h.same, h.machines⟩
  take h := ⟨congrArg (fun u : Framework R Unit D => { u with signalPending := none }) h.same,
    h.machines⟩
  record e h := h.recorded e
  recordOwn e _ hrt := recorded_untimed hrt e _ _

end Steps

section Unfelt

variable [RngCore R] [Time.Duration D] [Time.Instant T D] [Time.Instant T' D]

/-- Machines that have got their first limits, the same but for times. -/
def Started (s : List (MachineRuntime T D) × R) (s' : List (MachineRuntime T' D) × R) : Prop :=
  s.1.map MachineRuntime.untimed = s'.1.map MachineRuntime.untimed ∧ s.2 = s'.2

omit [Time.Instant T D] [Time.Instant T' D] in
theorem Started.limit {s : List (MachineRuntime T D) × R} {s' : List (MachineRuntime T' D) × R}
    (h : Started s s') (now : T) (now' : T') (m : Machine) :
    Alike Started (startLimit s (startRuntime now m, m))
      (startLimit s' (startRuntime now' m, m)) := by
  obtain ⟨runtime, rng⟩ := s
  obtain ⟨runtime', rng'⟩ := s'
  obtain ⟨hruntime, rfl⟩ := h
  unfold startLimit
  refine (Alike.refl _).bind fun st st' hst => ?_
  subst hst
  split
  · exact .returned ⟨by simp [hruntime, startRuntime, MachineRuntime.untimed], rfl⟩
  · exact .returned ⟨by simp [hruntime, startRuntime, MachineRuntime.untimed], rfl⟩

omit [Time.Instant T D] [Time.Instant T' D] in
/-- Frameworks that start at other times and with other limits for blocking. -/
theorem new_untimed {ms : List Machine} {padding blocking blocking' : F64} {now : T} {now' : T'}
    {rng : R} {f : Framework R T D} {g : Framework R T' D}
    (hf : Framework.new ms padding blocking now rng = .ok (.ok f))
    (hg : Framework.new ms padding blocking' now' rng = .ok (.ok g)) : Untimed ms f g := by
  obtain ⟨_, _, _, started, hstarted, rfl⟩ := new_ok.mp hf
  obtain ⟨_, _, _, started', hstarted', rfl⟩ := new_ok.mp hg
  rw [← List.map_prod_right_eq_zip, List.foldlM_map] at hstarted hstarted'
  have hstart : Started (([], rng) : List (MachineRuntime T D) × R)
      (([], rng) : List (MachineRuntime T' D) × R) := ⟨rfl, rfl⟩
  have hfold := Alike.foldlM (fun m (_ : m ∈ ms) _ _ h => h.limit now now' m) hstart
  obtain ⟨s, hs, hruntime, hrng⟩ := hfold.ok hstarted'
  obtain rfl : started = s := Except.ok.inj (hstarted.symm.trans hs)
  refine ⟨?_, rfl⟩
  unfold untimed fresh
  rw [hruntime, hrng]

/-- Machines that never block do not feel the time: whenever they start, whatever the limits for
blocking and whenever the calls come, in all sessions with the same events they return the same and
come to the same but for what was measured. -/
theorem times_unfelt {ms : List Machine} (hms : ∀ m ∈ ms, m.validate R = .ok () ∧ m.NeverBlocks)
    {padding blocking blocking' : F64} (hpadding : isFraction padding = true)
    (hblocking : isFraction blocking = true) (hblocking' : isFraction blocking' = true) (now : T)
    (now' : T') (rng : R) :
    ∃ (f : Framework R T D) (f' : Framework R T' D),
      Framework.new ms padding blocking now rng = .ok (.ok f) ∧
      Framework.new ms padding blocking' now' rng = .ok (.ok f') ∧
      ∀ session : List (List TriggerEvent × T × T'), ∃ actions g g',
        f.run (session.map fun c => (c.1, c.2.1)) = .ok (actions, g) ∧
        f'.run (session.map fun c => (c.1, c.2.2)) = .ok (actions, g') ∧
        g.untimed = g'.untimed := by
  have hvalid := fun m hm => (hms m hm).1
  obtain ⟨f, hf⟩ := new_total (T := T) (D := D) hpadding hblocking hvalid now rng
  obtain ⟨f', hf'⟩ := new_total (T := T') (D := D) hpadding hblocking' hvalid now' rng
  refine ⟨f, f', hf, hf', fun session => ?_⟩
  obtain ⟨hwf, hsent, _⟩ := new_wellFormed hf'
  obtain ⟨actions, g', hrun'⟩ := run_total hwf hsent (session.map fun c => (c.1, c.2.2))
  have hcalls : ∀ c ∈ session, ∀ (f : Framework R T D) (g : Framework R T' D), Untimed ms f g →
      Untimed ms (f.startCall c.2.1) (g.startCall c.2.2) :=
    fun c _ f g h => ⟨congrArg (fun u => u.startCall ()) h.same, h.machines⟩
  have halike := (untimed_alongside fun m hm => (hms m hm).2).run (fun f g h => h.actions) hcalls
    (new_untimed hf hf')
  obtain ⟨⟨actions', g⟩, hrun, hactions, hend⟩ := halike.ok hrun'
  obtain rfl : actions' = actions := hactions
  exact ⟨actions', g, g', hrun, hrun', hend.same⟩

/-- The padder that waits for the first packet: it pads the same at once and much later, with
blocking without a limit and with none. -/
theorem timedPadder_untimed : ∃ f f' : Framework Unit Instant Duration,
    Framework.new [timedPadder] ⟨0⟩ ⟨0⟩ (0 : Instant) () = .ok (.ok f) ∧
    Framework.new [timedPadder] ⟨0⟩ (Flt.ofRat 1) (7 : Instant) () = .ok (.ok f') ∧
    ∃ actions g g', f.run [([.blockingBegin 0], 1), ([.normalSent], 2)] = .ok (actions, g) ∧
      f'.run [([.blockingBegin 0], 8), ([.normalSent], 900)] = .ok (actions, g') ∧
      g.untimed = g'.untimed := by
  have hms : ∀ m ∈ [timedPadder], m.validate Unit = .ok () ∧ m.NeverBlocks := by
    intro m hm
    obtain rfl := List.mem_singleton.mp hm
    refine ⟨by decide +kernel, fun st hst bypass replace timeout duration limit => ?_⟩
    rcases List.mem_cons.mp hst with rfl | hst
    · simp
    · rw [List.mem_singleton.mp hst]
      simp [padUpTo]
  obtain ⟨f, f', hf, hf', hsession⟩ := times_unfelt (D := Duration) hms
    (show isFraction ⟨0⟩ = true by decide +kernel) (show isFraction ⟨0⟩ = true by decide +kernel)
    (show isFraction (Flt.ofRat 1) = true by decide +kernel) (0 : Instant) (7 : Instant) ()
  exact ⟨f, f', hf, hf', hsession [([.blockingBegin 0], 1, 8), ([.normalSent], 2, 900)]⟩

end Unfelt

end Framework

end Maybenot

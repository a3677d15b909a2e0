import Maybenot.Proofs.Chain

namespace Maybenot
open Lib

/-- Whether a step is a transition performed on one of some events. -/
def Step.performs (p : Event → Bool) : Step → Bool
  | .performed _ event => p event
  | .sampled .. | .entered .. | .scheduled .. => false

/-- How many transitions a call performed on some events. -/
def performed (p : Event → Bool) (log : List Step) : Nat := log.countP (·.performs p)

theorem performed_append (p : Event → Bool) (v w : List Step) :
    performed p (v ++ w) = performed p v + performed p w := List.countP_append

theorem performed_single (p : Event → Bool) (mi : Nat) (event : Event) :
    performed p [.performed mi event] = (p event).toNat := by
  cases h : p event <;> simp [performed, Step.performs, h]

namespace Framework

variable {R T D : Type}

/-- The transitions performed so far, and the counters that may still be zeroed. -/
def charge (p : Event → Bool) (f : Framework R T D) : Nat := performed p f.log + f.zeroBudget

theorem note_performed (p : Event → Bool) (f : Framework R T D) (mi : Nat) (event : Event) :
    (f.note (.performed mi event)).charge p = f.charge p + (p event).toNat := by
  change performed p (f.log ++ [.performed mi event]) + f.zeroBudget = _
  rw [performed_append, performed_single]
  simp only [charge]
  omega

/-- A step that is no transition is free. -/
theorem note_free (p : Event → Bool) (f : Framework R T D) {s : Step}
    (hs : s.performs p = false) : (f.note s).charge p = f.charge p := by
  change performed p (f.log ++ [s]) + f.zeroBudget = _
  rw [performed_append]
  simp [charge, performed, hs]

theorem schedule_free [RngCore R] [Time.Duration D] (p : Event → Bool) (f : Framework R T D)
    (mi s limit : Nat) (st : State) (allowed : Bool) :
    (f.schedule mi s limit st allowed).charge p = f.charge p := by
  unfold schedule
  cases allowed with
  | false => rfl
  | true =>
    have hplace : ((f.note (.scheduled mi s limit)).placeAction mi st).charge p =
        (f.note (.scheduled mi s limit)).charge p := by
      unfold placeAction
      cases st.action <;> rfl
    exact hplace.trans (note_free p f rfl)

variable [RngCore R]

theorem sampleNext_charge (p : Event → Bool) (f : Framework R T D) (mi : Nat) (event : Event)
    (st : State) : (f.sampleNext mi event st).charge p = f.charge p + (p event).toNat :=
  note_performed p f mi event

theorem enterState_free (p : Event → Bool) (f : Framework R T D) (mi s : Nat)
    (rt : MachineRuntime T D) (st : State) : (f.enterState mi rt s st).charge p = f.charge p := by
  unfold enterState
  split
  · rfl
  · cases st.action <;> rfl

theorem arrived_charge (p : Event → Bool) {f f1 : Framework R T D} {mi s limit : Nat}
    {event : Event} {rt : MachineRuntime T D} {cur st : State}
    (hin : f1 = (f.sampleNext mi event cur).arrive mi s rt st limit) :
    f1.charge p = f.charge p + (p event).toNat := by
  subst hin
  unfold arrive
  rw [note_free p _ rfl, enterState_free, note_free p _ rfl, sampleNext_charge]

theorem budget_rest (a b za zb : Bool) :
    (!(a || za)).toNat + (!(b || zb)).toNat ≤ (!a).toNat + (!b).toNat := by
  revert a b za zb
  decide

theorem applyCounters_charge (p : Event → Bool) (f : Framework R T D) (mi : Nat)
    (rt : MachineRuntime T D) (st : State) :
    (f.applyCounters mi rt st).2.charge p ≤ f.charge p :=
  Nat.add_le_add_left (budget_rest _ _ _ _) _

/-- Zeroing a counter pays for the transition it triggers. -/
theorem zeroed_charge (p : Event → Bool) {f : Framework R T D} {mi : Nat}
    {rt : MachineRuntime T D} {st : State} (hz : (f.applyCounters mi rt st).1 = true) :
    (f.applyCounters mi rt st).2.charge p + 1 ≤ f.charge p :=
  Nat.add_lt_add_left (zeroBudget_applyCounters hz) _

variable [Time.Duration D] [Time.Instant T D]

/-- A transition pays for those it triggers out of the budget: only its own is charged. -/
theorem Moves.charge {p : Event → Bool} {f f' : Framework R T D} {mi : Nat} {event : Event}
    {c : StateChange} (h : Moves f mi event c f') :
    f'.charge p ≤ f.charge p + (p event).toNat := by
  induction h with
  | ended hrt hend => exact (note_performed p _ _ _).le
  | idle hrt hne hcur hs => exact (sampleNext_charge p _ _ _ _).le
  | stop hrt hne hcur hs =>
    apply le_of_eq
    exact (note_free p _ rfl).trans (sampleNext_charge p _ _ _ _)
  | signal hrt hne hcur hs =>
    apply le_of_eq
    exact (note_free p _ rfl).trans (sampleNext_charge p _ _ _ _)
  | enter hrt hne hcur hs hreal hst hin hrt' hm hbelow hz hlen =>
    rw [schedule_free, ← arrived_charge p hin]
    exact applyCounters_charge p _ _ _ _
  | chain hrt hne hcur hs hreal hst hin hrt' hm hbelow hz hnest ha hafter ih =>
    rw [schedule_free, ← arrived_charge p hin]
    have hpaid := zeroed_charge p hz
    have hone := Bool.toNat_le (p .counterZero)
    omega

/-- What a machine's turn can cost: its transition, and one more if the event uses up its
limit. -/
def turnCost (p : Event → Bool) (e : TriggerEvent) (mi : Nat) : Nat :=
  (p e.event).toNat + (e.limits mi && p .limitReached).toNat

theorem Turn.charge {p : Event → Bool} {e : TriggerEvent} {blocked : D} {f f' : Framework R T D}
    {mi : Nat} (h : Turn e blocked f mi f') : f'.charge p ≤ f.charge p + turnCost p e mi := by
  cases h with
  | apart hc => exact Nat.le_add_right _ _
  | moved hc hrt hm hrt' hkeep =>
    exact hm.charge.trans (Nat.add_le_add_left (Nat.le_add_right _ _) _)
  | used hc hrt hl hm hrt' hne hst hu =>
    exact hm.charge.trans (Nat.add_le_add_left (Nat.le_add_right _ _) _)
  | @reached _ g rt' _ _ _ hc hrt hl hm hrt' hne hst hu hlen hm' =>
    have hfirst : g.charge p ≤ f.charge p + (p e.event).toNat := hm.charge
    have hlast : f'.charge p ≤ g.charge p + (p .limitReached).toNat := hm'.charge
    simp only [turnCost, hl, Bool.true_and]
    omega

omit [RngCore R] [Time.Duration D] [Time.Instant T D] in
/-- An event uses up the limit of one machine at most. -/
theorem limits_once (e : TriggerEvent) (n : Nat) : (List.range n).countP e.limits ≤ 1 := by
  have hone (machine : Nat) : (List.range n).countP (fun mi => decide (machine = mi)) ≤ 1 := by
    have hcount := List.nodup_iff_count.mp (List.nodup_range (n := n)) machine
    simpa only [List.count, eq_comm (a := machine), beq_eq_decide] using hcount
  cases e with
  | paddingSent machine | blockingBegin machine | timerBegin machine => exact hone machine
  | _ => simp [TriggerEvent.limits]

/-- What processing an event can cost, for `n` machines. -/
def eventCost (p : Event → Bool) (n : Nat) (e : TriggerEvent) : Nat :=
  n * (p e.event).toNat + (p .limitReached).toNat

omit [RngCore R] in
theorem recorded_free (p : Event → Bool) (f : Framework R T D) (e : TriggerEvent) :
    (f.recorded e).charge p = f.charge p :=
  recorded_apart (charge p) (fun _ _ _ _ _ _ => rfl) f e

theorem processEvent_charge {p : Event → Bool} {f f' : Framework R T D} {e : TriggerEvent}
    (h : f.processEvent e = .ok f') :
    f'.charge p ≤ f.charge p + eventCost p f.runtime.length e := by
  rw [processEvent_eq] at h
  have hturns : f'.charge p ≤ f.charge p + (f.recorded e).runtime.length * (p e.event).toNat +
      ((List.range (f.recorded e).runtime.length).countP e.limits) *
        (p .limitReached).toNat := by
    refine foldlM_range (P := fun i g => g.charge p ≤ f.charge p + i * (p e.event).toNat +
      ((List.range i).countP e.limits) * (p .limitReached).toNat) ?_ ?_ h
    · intro i g g' _ hg hstep
      have hturn := (turn_ok hstep).charge (p := p)
      have hcount : (List.range (i + 1)).countP e.limits =
          (List.range i).countP e.limits + (e.limits i).toNat := by
        rw [List.range_succ, List.countP_append]
        cases hl : e.limits i <;> simp [hl]
      have hcost : turnCost p e i =
          (p e.event).toNat + (e.limits i).toNat * (p .limitReached).toNat := by
        cases hl : e.limits i <;> simp [turnCost, hl]
      rw [hcount, Nat.add_mul, Nat.add_mul, Nat.one_mul]
      omega
    · simp [recorded_free]
  have honce := Nat.mul_le_mul_right (p .limitReached).toNat
    (limits_once e (f.recorded e).runtime.length)
  rw [recorded_runtime] at hturns honce
  unfold eventCost
  omega

theorem processEvents_charge {p : Event → Bool} {f f' : Framework R T D}
    {events : List TriggerEvent} (h : f.processEvents events = .ok f') :
    f'.charge p ≤ f.charge p + (events.map (eventCost p f.runtime.length)).sum := by
  unfold processEvents at h
  induction events generalizing f with
  | nil =>
    obtain rfl : f = f' := by simpa using h
    exact Nat.le_refl _
  | cons e es ih =>
    rw [List.foldlM_cons, bind_ok] at h
    obtain ⟨g, he, hes⟩ := h
    have hfirst := processEvent_charge (p := p) he
    have hrest := ih hes
    rw [(shape_eq (processEvent_shape he)).2.1] at hrest
    rw [List.map_cons, List.sum_cons]
    omega

theorem signalAll_charge {p : Event → Bool} {f f' : Framework R T D} {excluded : Option Nat}
    (h : f.signalAll excluded = .ok f') :
    f'.charge p ≤ f.charge p + f.runtime.length * (p .signal).toNat := by
  refine foldlM_range (P := fun i g => g.charge p ≤ f.charge p + i * (p .signal).toNat) ?_
    (by simp) h
  intro i g g' _ hg hstep
  rw [Nat.add_mul, Nat.one_mul]
  split at hstep
  · obtain rfl := pure_ok.mp hstep
    omega
  · obtain ⟨c, hm⟩ := transitionOnly_ok hstep
    have hone : g'.charge p ≤ g.charge p + (p .signal).toNat := hm.charge
    change g'.charge p ≤ _
    omega

theorem deliverSignal_charge {p : Event → Bool} {f f' : Framework R T D}
    (h : f.deliverSignal = .ok f') :
    f'.charge p ≤ f.charge p + (f.runtime.length + 1) * (p .signal).toNat := by
  rw [Nat.add_mul, Nat.one_mul]
  rcases deliverSignal_parts h with rfl | ⟨excluded, g, hg, hend⟩
  · omega
  · have hall : g.charge p ≤ f.charge p + f.runtime.length * (p .signal).toNat :=
      signalAll_charge (f := f.taken) hg
    rcases hend with rfl | ⟨x, c, _, hm⟩
    · exact hall.trans (Nat.add_le_add_left (Nat.le_add_right _ _) _)
    · have hlast : f'.charge p ≤ g.charge p + (p .signal).toNat := hm.charge
      omega

/-- The delivery reaches a machine once at most. -/
theorem deliverSignal_heard {f f' : Framework R T D} (h : f.deliverSignal = .ok f') (mi : Nat) :
    heard mi f'.log ≤ heard mi f.log + 1 := by
  rcases deliverSignal_parts h with rfl | ⟨excluded, g, hg, hend⟩
  · exact Nat.le_succ _
  · obtain ⟨_, w, hw⟩ := signalAll_emits hg
    have hround : heard mi g.log = heard mi f.log +
        if mi < f.runtime.length ∧ excluded ≠ some mi then 1 else 0 := by
      rw [hw.log, heard_append, hw.times]
      rfl
    rcases hend with rfl | ⟨x, c, rfl, hm⟩
    · change heard mi g.log ≤ _
      split at hround <;> omega
    · obtain ⟨v, hv⟩ := hm.emits
      have hlast : heard mi f'.log = heard mi g.log + if mi = x then 1 else 0 := by
        rw [hv.log, heard_append, hv.times]
        simp [taken]
      by_cases hx : mi = x
      · simp only [hx, ne_eq, not_true, and_false, if_false, if_true] at hround hlast ⊢
        omega
      · simp only [hx, if_false] at hlast
        split at hround <;> omega

theorem call_charge {p : Event → Bool} {f f' : Framework R T D} {events : List TriggerEvent}
    {now : T} {actions : List (TriggerAction D)}
    (h : f.triggerEvents events now = .ok (actions, f')) :
    performed p f'.log ≤ 2 + (events.map (eventCost p f.runtime.length)).sum +
      (f.runtime.length + 1) * (p .signal).toNat := by
  obtain ⟨f1, h1, hd, _⟩ := triggerEvents_ok h
  have hstart : (f.startCall now).charge p = 2 := rfl
  have hevents := processEvents_charge (p := p) h1
  have hsignals := deliverSignal_charge (p := p) hd
  rw [(shape_eq (processEvents_shape h1)).2.1] at hsignals
  change f1.charge p ≤ _ + (events.map (eventCost p f.runtime.length)).sum at hevents
  change f'.charge p ≤ _ + (f.runtime.length + 1) * _ at hsignals
  have hlog : performed p f'.log ≤ f'.charge p := Nat.le_add_right _ _
  omega

/-- A call comes to an end after a bounded number of transitions, of which two at most are for
zeroed counters, and signals each machine once at most. -/
theorem call_bounded {f : Framework R T D} (hf : Reachable f) (events : List TriggerEvent)
    (now : T) :
    ∃ actions f', f.triggerEvents events now = .ok (actions, f') ∧
      performed (· = .counterZero) f'.log ≤ 2 ∧
      (∀ mi, heard mi f'.log ≤ 1) ∧
      performed (fun _ => true) f'.log ≤
        events.length * (f.machines.length + 1) + f.machines.length + 3 := by
  obtain ⟨hwf, hs⟩ := hf.wellFormed
  obtain ⟨actions, f', h, _⟩ := triggerEvents_total hwf hs events now
  refine ⟨actions, f', h, ?_, ?_, ?_⟩
  · have hcost := call_charge (p := (· = .counterZero)) h
    have hfree : events.map (eventCost (· = .counterZero) f.runtime.length) =
        events.map fun _ => 0 := by
      apply List.map_congr_left
      intro e _
      cases e <;> rfl
    simpa [hfree] using hcost
  · intro mi
    obtain ⟨f1, h1, hd, _⟩ := triggerEvents_ok h
    obtain ⟨w, hw⟩ := processEvents_emits h1
    have hnone : heard mi f1.log = 0 := by
      rw [hw.log, heard_append, hw.times]
      rfl
    have hround := deliverSignal_heard hd mi
    omega
  · have hcost := call_charge (p := fun _ => true) h
    have hsum : (events.map (eventCost (fun _ => true) f.runtime.length)).sum =
        events.length * (f.machines.length + 1) := by
      have hsame : events.map (eventCost (fun _ => true) f.runtime.length) =
          events.map fun _ => f.machines.length + 1 := by
        apply List.map_congr_left
        intro e _
        simp only [eventCost, hwf.runtime, Bool.toNat_true, Nat.mul_one]
      simp [hsame]
    rw [hsum, hwf.runtime] at hcost
    simp only [Bool.toNat_true, Nat.mul_one] at hcost
    omega

/-- A machine that zeroes one of its counters while it sets the other, in turns. -/
def seesaw : Machine :=
  .free [
    .new fun
      | .normalSent => certain 1
      | _ => [],
    { State.new (fun
        | .normalSent => certain 2
        | _ => []) with counter := (some ⟨.set, none, false⟩, none) },
    { State.new (fun
        | .counterZero => certain 3
        | _ => []) with counter := (some ⟨.decrement, none, false⟩, some ⟨.set, none, false⟩) },
    { State.new (fun
        | .counterZero => certain 2
        | _ => []) with counter := (some ⟨.set, none, false⟩, some ⟨.decrement, none, false⟩) }]

theorem seesaw_bounded : ∃ f : Framework Unit Instant Duration, Reachable f ∧
    f.machines = [seesaw] ∧
    ∃ actions f', f.triggerEvents [.normalSent, .normalSent] 0 = .ok (actions, f') ∧
      performed (· = .counterZero) f'.log ≤ 2 ∧ (∀ mi, heard mi f'.log ≤ 1) ∧
      performed (fun _ => true) f'.log ≤ 2 * (f.machines.length + 1) + f.machines.length + 3 := by
  have hrun : (play [seesaw] []).map (·.machines) = some [seesaw] := by decide +kernel
  obtain ⟨f, hplay, hmachines⟩ := Option.map_eq_some_iff.mp hrun
  have hf := play_reachable hplay
  exact ⟨f, hf, hmachines, call_bounded hf [.normalSent, .normalSent] 0⟩

example : (play [seesaw] [([.normalSent, .normalSent], 0)]).map (fun f =>
    performed (· = .counterZero) f.log) = some 2 := by decide +kernel

end Framework

end Maybenot

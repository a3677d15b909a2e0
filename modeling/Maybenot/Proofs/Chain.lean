import Maybenot.Proofs.Total

namespace Maybenot.Framework
open Lib

variable {R T D : Type} [RngCore R] [Time.Duration D] [Time.Instant T D]

/-- A state that a chain of transitions enters: with its limit then, whether its action was
below all limits on entry, and whether its counter update has zeroed a counter. -/
structure Visit where
  state : Nat
  limit : Nat
  body : State
  below : Bool
  zeroed : Bool

/-- A transition and those that zeroed counters trigger, one after the other and without
scheduling any action: each state is entered and its counters are updated before the next
transition. -/
def walk (f : Framework R T D) (mi : Nat) (event : Event) :
    Exec (Framework R T D × List Visit) := do
  let rt ← at? f.runtime mi
  if rt.currentState = stateEnd then
    return (f.note (.performed mi event), [])
  let machine ← at? f.machines mi
  let cur ← machine.stateAt rt.currentState
  match (cur.sampleState event f.rng).1 with
  | none => return (f.sampleNext mi event cur, [])
  | some s =>
    if s = stateEnd then
      return (((f.sampleNext mi event cur).note (.sampled mi stateEnd)).setRuntime mi
        { rt with currentState := stateEnd }, [])
    else if s = stateSignal then
      return ({ (f.sampleNext mi event cur).note (.sampled mi stateSignal) with
        signalPending := raiseSignal f.signalPending mi }, [])
    else
      let body ← machine.stateAt s
      let inside := ((f.sampleNext mi event cur).note (.sampled mi s)).enterState mi rt s body
      let entered ← at? inside.runtime mi
      let inside := inside.note (.entered mi s entered.stateLimit)
      let below ← inside.belowActionLimits entered machine
      if _h : (inside.applyCounters mi entered body).1 = true then
        let (g, visits) ← walk (inside.applyCounters mi entered body).2 mi .counterZero
        return (g, ⟨s, entered.stateLimit, body, below, true⟩ :: visits)
      else
        return ((inside.applyCounters mi entered body).2,
          [⟨s, entered.stateLimit, body, below, false⟩])
termination_by f.zeroBudget
decreasing_by
  exact lt_of_lt_of_eq (zeroBudget_applyCounters _h)
    (zeroBudget_enterState ((f.sampleNext mi event cur).note (.sampled mi s)) mi rt s body)

/-- The last state of a chain whose action was below all limits. -/
def lastBelow (visits : List Visit) : Option Visit := (visits.filter (·.below)).getLast?

/-- The visit whose action the code schedules. With an action in place already it is the
last state of the chain or none, and not after a zeroed counter. -/
def chosen (placed : Bool) (visits : List Visit) : Option Visit :=
  if placed then visits.getLast?.filter fun v => v.below && !v.zeroed else lastBelow visits

/-- The end of a chain: the action of the visit is scheduled. -/
def settle (f : Framework R T D) (mi : Nat) (visit : Option Visit) : Framework R T D :=
  match visit with
  | some v => f.schedule mi v.state v.limit v.body true
  | none => f

omit [RngCore R] in
/-- Only a state with an action is below its limits. -/
theorem below_action {f : Framework R T D} {rt : MachineRuntime T D} {m : Machine} {st : State}
    (hst : m.states[rt.currentState]? = some st) (h : f.belowActionLimits rt m = .ok true) :
    st.action.isSome := by
  cases ha : st.action with
  | none => simp [belowActionLimits, Machine.stateAt, at?_ok.mpr hst, ha, pure, Except.pure] at h
  | some a => rfl

omit [Time.Instant T D] in
theorem settle_action {f : Framework R T D} {mi : Nat} {v : Visit} (hmi : mi < f.actions.length)
    (hv : v.body.action.isSome) : ∃ act, v.body.action = some act ∧
      (f.settle mi (some v)).actions[mi]? = some (some (triggerAction mi act f.rng).1) := by
  obtain ⟨act, hact⟩ := Option.isSome_iff_exists.mp hv
  refine ⟨act, hact, ?_⟩
  simp [settle, schedule, placeAction, hact, hmi]

/-- What a chain leaves alone, and what its visits are like. -/
structure Walked (f : Framework R T D) (mi : Nat) (g : Framework R T D) (visits : List Visit) :
    Prop where
  frame : Frame mi f g
  actions : g.actions = f.actions
  acting : ∀ v ∈ visits, v.below = true → v.body.action.isSome

theorem lastBelow_cons (v : Visit) (visits : List Visit) :
    lastBelow (v :: visits) =
      (lastBelow visits).or (if v.below then some v else none) := by
  unfold lastBelow
  cases hv : v.below with
  | false => simp [hv]
  | true =>
    rw [List.filter_cons_of_pos hv, List.getLast?_cons]
    cases (visits.filter (·.below)).getLast? <;> simp

theorem lastBelow_mem {visits : List Visit} {v : Visit} (h : lastBelow visits = some v) :
    v ∈ visits ∧ v.below = true := by
  have hmem := List.mem_of_getLast? h
  exact List.mem_filter.mp hmem

theorem walk_enter {f f1 : Framework R T D} {mi s : Nat} {event : Event}
    {rt rt' : MachineRuntime T D} {cur st : State} {m : Machine} {below : Bool}
    (hrt : f.runtime[mi]? = some rt) (hne : rt.currentState ≠ stateEnd)
    (hcur : StateOf f mi rt.currentState cur)
    (hs : (cur.sampleState event f.rng).1 = some s)
    (hreal : s ≠ stateEnd ∧ s ≠ stateSignal) (hst : StateOf f mi s st)
    (hin : f1 = (f.sampleNext mi event cur).arrive mi s rt st rt'.stateLimit)
    (hrt' : f1.runtime[mi]? = some rt') (hm : f1.machines[mi]? = some m)
    (hbelow : f1.belowActionLimits rt' m = .ok below) :
    f.walk mi event =
      if (f1.applyCounters mi rt' st).1 = true then do
        let (g, visits) ← (f1.applyCounters mi rt' st).2.walk mi .counterZero
        return (g, ⟨s, rt'.stateLimit, st, below, true⟩ :: visits)
      else
        return ((f1.applyCounters mi rt' st).2, [⟨s, rt'.stateLimit, st, below, false⟩]) := by
  subst hin
  have hm0 : f.machines[mi]? = some m := by
    rw [← hm, (Frame.arrive (f := f.sampleNext mi event cur) hrt).machines]
    rfl
  rw [walk]
  refine (bind_eq (at?_ok.mpr hrt)).trans ?_
  rw [if_neg hne]
  refine (bind_eq (at?_ok.mpr hm0)).trans ((bind_eq (at?_ok.mpr (hcur.machine hm0))).trans ?_)
  simp only [hs, if_neg hreal.1, if_neg hreal.2]
  refine (bind_eq (at?_ok.mpr (hst.machine hm0))).trans ?_
  refine (bind_eq (at?_ok.mpr hrt')).trans ((bind_eq hbelow).trans ?_)
  by_cases hz : (((f.sampleNext mi event cur).arrive mi s rt st rt'.stateLimit).applyCounters mi
      rt' st).1 = true
  · rw [if_pos hz]
    exact dif_pos hz
  · rw [if_neg hz]
    exact dif_neg hz

omit [Time.Instant T D] in
/-- The code's decision after a nested transition, from whether an action is in place by
then. -/
theorem schedule_settled {g : Framework R T D} {mi : Nat} {p a : Option (TriggerAction D)}
    {v : Visit} {visits : List Visit} (hv : v.zeroed = true) (hp : g.actions[mi]? = some p)
    (ha : (g.settle mi (chosen p.isSome visits)).actions[mi]? = some a)
    (hacting : ∀ w ∈ visits, w.below = true → w.body.action.isSome) :
    (g.settle mi (chosen p.isSome visits)).schedule mi v.state v.limit v.body
      (a.isNone && v.below) = g.settle mi (chosen p.isSome (v :: visits)) := by
  have hmi := (List.getElem?_eq_some_iff.mp hp).1
  have hplaced {w : Visit} {act : Option (TriggerAction D)}
      (hw : w ∈ visits ∧ w.below = true)
      (h : (g.settle mi (some w)).actions[mi]? = some act) : act.isNone = false := by
    obtain ⟨_, _, hact⟩ := settle_action hmi (hacting w hw.1 hw.2)
    rw [hact] at h
    obtain rfl := Option.some.inj h
    rfl
  cases p with
  | some act =>
    have hsame : chosen true (v :: visits) = chosen true visits := by
      cases visits with
      | nil => simp [chosen, hv]
      | cons w rest => simp [chosen, List.getLast?_cons_cons]
    have hnone : a.isNone = false := by
      cases hc : chosen true visits with
      | none =>
        simp only [Option.isSome_some, hc, settle] at ha
        rw [hp] at ha
        obtain rfl := Option.some.inj ha
        rfl
      | some w =>
        simp only [Option.isSome_some, hc] at ha
        obtain ⟨hlast, hw⟩ := Option.filter_eq_some_iff.mp hc
        exact hplaced ⟨List.mem_of_getLast? hlast, (Bool.and_eq_true_iff.mp hw).1⟩ ha
    simp only [Option.isSome_some, hsame, hnone, Bool.false_and]
    rfl
  | none =>
    change (g.settle mi (lastBelow visits)).schedule mi v.state v.limit v.body
      (a.isNone && v.below) = g.settle mi (lastBelow (v :: visits))
    change (g.settle mi (lastBelow visits)).actions[mi]? = some a at ha
    rw [lastBelow_cons]
    cases hl : lastBelow visits with
    | none =>
      rw [hl] at ha
      change g.actions[mi]? = some a at ha
      rw [hp] at ha
      obtain rfl := Option.some.inj ha
      cases hb : v.below <;> rfl
    | some w =>
      rw [hl] at ha
      rw [hplaced (lastBelow_mem hl) ha]
      rfl

/-- What the move into a state leaves alone, and what the limits let through there. -/
theorem entered_walked {f f1 : Framework R T D} {mi s : Nat} {event : Event}
    {rt rt' : MachineRuntime T D} {cur st : State} {m : Machine} {below : Bool}
    (hrt : f.runtime[mi]? = some rt) (hst : StateOf f mi s st)
    (hin : f1 = (f.sampleNext mi event cur).arrive mi s rt st rt'.stateLimit)
    (hrt' : f1.runtime[mi]? = some rt') (hm : f1.machines[mi]? = some m)
    (hbelow : f1.belowActionLimits rt' m = .ok below) :
    Frame mi f (f1.applyCounters mi rt' st).2 ∧
      (f1.applyCounters mi rt' st).2.actions = f.actions ∧
      (below = true → st.action.isSome) := by
  have hframe := Frame.arrived hrt hin
  refine ⟨hframe.trans (Frame.applyCounters hrt'), ?_, ?_⟩
  · exact (rfl : _ = f1.actions).trans (arrived_actions hin)
  · intro hb
    subst hb
    apply below_action _ hbelow
    rw [arrived_current hrt hin hrt']
    exact (hframe.stateOf.mpr hst).machine hm

/-- A transition does what the chain does, and then schedules the action of one of its
states. -/
theorem Moves.walk {f f' : Framework R T D} {mi : Nat} {event : Event} {c : StateChange}
    {p : Option (TriggerAction D)} (h : Moves f mi event c f') (hp : f.actions[mi]? = some p) :
    ∃ g visits, f.walk mi event = .ok (g, visits) ∧ Walked f mi g visits ∧
      f' = g.settle mi (chosen p.isSome visits) := by
  have hnil : chosen p.isSome [] = none := by cases p <;> rfl
  have hnone {g : Framework R T D} : g = g.settle mi (chosen p.isSome []) := by
    rw [hnil]
    rfl
  induction h with
  | ended hrt hend =>
    refine ⟨_, [], ?_, ⟨Frame.note _ _ _, rfl, by simp⟩, hnone⟩
    rw [Framework.walk]
    refine (bind_eq (at?_ok.mpr hrt)).trans ?_
    rw [if_pos hend]
    rfl
  | idle hrt hne hcur hs =>
    refine ⟨_, [], ?_, ⟨Frame.sampleNext _ _ _ _, rfl, by simp⟩, hnone⟩
    obtain ⟨m, hm, hcur⟩ := hcur
    rw [Framework.walk]
    refine (bind_eq (at?_ok.mpr hrt)).trans ?_
    rw [if_neg hne]
    refine (bind_eq (at?_ok.mpr hm)).trans ((bind_eq (at?_ok.mpr hcur)).trans ?_)
    simp only [hs]
    rfl
  | @stop mi rt f cur event hrt hne hcur hs =>
    refine ⟨((f.sampleNext mi event cur).note (.sampled mi stateEnd)).setRuntime mi
      { rt with currentState := stateEnd }, [], ?_, ⟨?_, rfl, by simp⟩, hnone⟩
    · obtain ⟨m, hm, hcur⟩ := hcur
      rw [Framework.walk]
      refine (bind_eq (at?_ok.mpr hrt)).trans ?_
      rw [if_neg hne]
      refine (bind_eq (at?_ok.mpr hm)).trans ((bind_eq (at?_ok.mpr hcur)).trans ?_)
      simp only [hs]
      rfl
    · exact ((Frame.sampleNext _ _ _ _).trans (Frame.note _ _ _)).trans (Frame.setRuntime hrt rfl)
  | @signal mi rt f cur event hrt hne hcur hs =>
    refine ⟨{ (f.sampleNext mi event cur).note (.sampled mi stateSignal) with
      signalPending := raiseSignal f.signalPending mi }, [], ?_, ⟨Frame.same _ rfl rfl rfl, rfl,
        by simp⟩, hnone⟩
    obtain ⟨m, hm, hcur⟩ := hcur
    rw [Framework.walk]
    refine (bind_eq (at?_ok.mpr hrt)).trans ?_
    rw [if_neg hne]
    refine (bind_eq (at?_ok.mpr hm)).trans ((bind_eq (at?_ok.mpr hcur)).trans ?_)
    simp only [hs]
    rfl
  | @enter mi _ f _ _ s st f1 rt' m below hrt hne hcur hs hreal hst hin hrt' hm hbelow hz hlen =>
    obtain ⟨hframe, hactions, hacting⟩ := entered_walked hrt hst hin hrt' hm hbelow
    refine ⟨_, [⟨s, rt'.stateLimit, st, below, false⟩], ?_,
      ⟨hframe, hactions, ?_⟩, ?_⟩
    · rw [walk_enter hrt hne hcur hs hreal hst hin hrt' hm hbelow, if_neg (by simp [hz])]
      rfl
    · intro v hv
      obtain rfl := List.mem_singleton.mp hv
      exact hacting
    · cases p <;> cases below <;> rfl
  | @chain mi _ f _ _ s st f1 rt' m below change f2 a after hrt hne hcur hs hreal hst hin hrt' hm
      hbelow hz hnest ha hafter ih =>
    obtain ⟨hframe, hactions, hacting⟩ := entered_walked hrt hst hin hrt' hm hbelow
    have hp1 : (f1.applyCounters mi rt' st).2.actions[mi]? = some p := by
      rw [hactions, hp]
    obtain ⟨g, visits, hwalk, hwalked, hf2⟩ := ih hp1 hnone
    refine ⟨g, ⟨s, rt'.stateLimit, st, below, true⟩ :: visits, ?_,
      ⟨hframe.trans hwalked.frame,
        hwalked.actions.trans hactions, ?_⟩, ?_⟩
    · rw [walk_enter hrt hne hcur hs hreal hst hin hrt' hm hbelow, if_pos hz]
      exact bind_eq hwalk
    · intro v hv
      rcases List.mem_cons.mp hv with rfl | hv
      · exact hacting
      · exact hwalked.acting v hv
    · subst hf2
      exact schedule_settled (v := ⟨s, rt'.stateLimit, st, below, true⟩) rfl
        (hwalked.actions ▸ hp1) ha hwalked.acting

/-- The action of the last state of a chain that was below its limits; without one, the action
that was there before. -/
def lastAction (g : Framework R T D) (mi : Nat) (visits : List Visit)
    (p : Option (TriggerAction D)) : Option (TriggerAction D) :=
  match lastBelow visits with
  | some v => v.body.action.map fun action => (triggerAction mi action g.rng).1
  | none => p

/-- The chain ends in a state that is below its limits and zeroes no counter. -/
def EndsBelow (visits : List Visit) : Prop :=
  ∃ v, visits.getLast? = some v ∧ v.below = true ∧ v.zeroed = false

omit [Time.Duration D] [Time.Instant T D] in
theorem settle_runtime [Time.Duration D] (g : Framework R T D) (mi : Nat) (v : Option Visit) :
    (g.settle mi v).runtime = g.runtime := by
  cases v with
  | none => rfl
  | some v => exact schedule_runtime g mi v.state v.limit v.body true

theorem chosen_placed {visits : List Visit} :
    (∃ v, chosen true visits = some v) ↔ EndsBelow visits := by
  unfold chosen EndsBelow
  simp only [if_true, Option.filter_eq_some_iff, Bool.and_eq_true, Bool.not_eq_true']

/-- Where the end of the chain is scheduled, it is the last state below its limits. -/
theorem chosen_last {visits : List Visit} {v : Visit} (h : chosen true visits = some v) :
    lastBelow visits = some v := by
  obtain ⟨hlast, hv⟩ := Option.filter_eq_some_iff.mp h
  have hbelow := (Bool.and_eq_true_iff.mp hv).1
  obtain ⟨before, rfl⟩ := List.getLast?_eq_some_iff.mp hlast
  simp [lastBelow, List.filter_append, hbelow]

/-- Each transition goes through the chain of states and counter updates; it leaves the action
of the last state below its limits unless an action was there before, which only a chain that
ends in such a state then replaces. -/
theorem transition_last_action {f : Framework R T D} (hf : WellFormed f) {mi : Nat}
    (hmi : mi < f.machines.length) (event : Event) :
    ∃ p, f.actions[mi]? = some p ∧ ∃ c f' g visits,
      f.transition mi event = .ok (c, f') ∧ f.walk mi event = .ok (g, visits) ∧
      ((f'.runtime = g.runtime ∧ f'.actions[mi]? = some (g.lastAction mi visits p)) ↔
        p = none ∨ lastBelow visits = none ∨ EndsBelow visits ∨
          p = g.lastAction mi visits p) := by
  obtain ⟨p, hp⟩ := exists_getElem? (hf.actions ▸ hmi)
  obtain ⟨c, f', hmoves⟩ := moves_total hf hmi event
  obtain ⟨g, visits, hwalk, hwalked, hf'⟩ := hmoves.walk hp
  refine ⟨p, hp, c, f', g, visits, hmoves.transition, hwalk, ?_⟩
  have hruntime : f'.runtime = g.runtime := by
    rw [hf']
    exact settle_runtime g mi _
  have hpg : g.actions[mi]? = some p := hwalked.actions ▸ hp
  have hmi' : mi < g.actions.length := (List.getElem?_eq_some_iff.mp hpg).1
  have hdone {v : Visit} (hv : lastBelow visits = some v) :
      (g.settle mi (some v)).actions[mi]? = some (g.lastAction mi visits p) := by
    obtain ⟨hmem, hbelow⟩ := lastBelow_mem hv
    obtain ⟨act, hact, hslot⟩ := settle_action hmi' (hwalked.acting v hmem hbelow)
    rw [hslot]
    simp [lastAction, hv, hact]
  rw [and_iff_right hruntime, hf']
  cases hplaced : p with
  | none =>
    refine ⟨fun _ => .inl rfl, fun _ => ?_⟩
    subst hplaced
    change (g.settle mi (lastBelow visits)).actions[mi]? = _
    cases hv : lastBelow visits with
    | none => simpa [settle, lastAction, hv] using hpg
    | some v => exact hdone hv
  | some act =>
    rw [hplaced] at hpg hdone
    change (g.settle mi (chosen true visits)).actions[mi]? = _ ↔ _
    cases hv : chosen true visits with
    | some v =>
      refine ⟨fun _ => .inr (.inr (.inl (chosen_placed.mp ⟨v, hv⟩))), fun _ => ?_⟩
      exact hdone (chosen_last hv)
    | none =>
      have hnot : ¬ EndsBelow visits := by
        rw [← chosen_placed, hv]
        simp
      change g.actions[mi]? = _ ↔ _
      rw [hpg, Option.some.injEq]
      refine ⟨fun h => .inr (.inr (.inr h)), ?_⟩
      rintro (h | h | h | h)
      · cases h
      · simp [lastAction, h]
      · exact absurd h hnot
      · exact h

/-- Every framework in use is well formed, between the calls and between the events of a
call, whatever actions it holds. -/
theorem Reachable.wellFormed {f : Framework R T D} (h : Reachable f) : WellFormed f ∧ Sent f := by
  refine h.invariant (P := fun f => WellFormed f ∧ Sent f) ?_ ?_
  · intro f ⟨_, _, _, _, _, hnew⟩
    obtain ⟨hwf, hsent, _⟩ := new_wellFormed hnew
    exact ⟨hwf, hsent⟩
  · intro f f' ⟨hwf, hsent⟩ ⟨events, now, _, _, hcall⟩
    obtain ⟨_, g, hcall', hwf', hsent'⟩ := triggerEvents_total hwf hsent events now
    rw [hcall] at hcall'
    obtain ⟨_, rfl⟩ := Prod.mk.inj (Except.ok.inj hcall')
    exact ⟨hwf', hsent'⟩

theorem Reachable.during {f f' : Framework R T D} (h : Reachable f) {events : List TriggerEvent}
    {now : T} (hrun : (f.startCall now).processEvents events = .ok f') : WellFormed f' := by
  obtain ⟨hwf, hsent⟩ := h.wellFormed
  have hstart : WellFormed (f.startCall now) :=
    hwf.keep (by simp [startCall, shape]) fun _ rt hrt => .inl ⟨rt, hrt, rfl⟩
  obtain ⟨g, hg, hwf', _⟩ := processEvents_total hstart hsent events
  rw [hrun] at hg
  exact Except.ok.inj hg ▸ hwf'

omit [RngCore R] [Time.Duration D] [Time.Instant T D] in
theorem WellFormed.anyAction {f : Framework R T D} (h : WellFormed f) (mi : Nat)
    (p : Option (TriggerAction D)) : WellFormed { f with actions := f.actions.set mi p } :=
  ⟨h.runtime, by simp [h.actions], h.closed, h.states⟩

/-- A machine whose padding on a packet sent is in a state that zeroes a counter. -/
def padderBoth : Machine :=
  let now : Dist := ⟨.uniform ⟨0⟩ ⟨0⟩, ⟨0⟩, ⟨0⟩⟩
  ⟨10, ⟨0⟩, 0, ⟨0⟩, [
    .new fun
      | .tunnelRecv => certain 1
      | _ => [],
    { State.new (fun
        | .normalSent => certain 2
        | _ => []) with
      action := some (.sendPadding false false now none)
      counter := (some ⟨.increment, none, false⟩, none) },
    { State.new (fun _ => []) with
      action := some (.sendPadding true true now none)
      counter := (some ⟨.decrement, none, false⟩, none) }]⟩

/-- With an action from an earlier event of the batch, the action of the state entered last
is lost. -/
theorem earlier_action_kept : ∃ f0 f f' g : Framework Unit Instant Duration, ∃ c visits p,
    Reachable f0 ∧ (f0.startCall 0).processEvents [.tunnelRecv] = .ok f ∧
    f.actions[0]? = some p ∧
    f.transition 0 .normalSent = .ok (c, f') ∧ f.walk 0 .normalSent = .ok (g, visits) ∧
    f'.actions[0]? = some (some (.sendPadding 0 false false 0)) ∧
    g.lastAction 0 visits p = some (.sendPadding 0 true true 0) := by
  have hrun : ((play [padderBoth] []).bind fun f0 =>
      ((f0.startCall 0).processEvents [.tunnelRecv]).toOption.bind fun f =>
        f.actions[0]?.bind fun p => (f.transition 0 .normalSent).toOption.bind fun r =>
          (f.walk 0 .normalSent).toOption.map fun w =>
            (r.2.actions[0]?, w.1.lastAction 0 w.2 p)) =
      some (some (some (.sendPadding 0 false false 0)), some (.sendPadding 0 true true 0)) := by
    decide +kernel
  simp only [Option.bind_eq_some_iff, Option.map_eq_some_iff, toOption_eq_some,
    Prod.mk.injEq] at hrun
  obtain ⟨f0, h0, f, hf, p, hp, ⟨c, f'⟩, ht, ⟨g, visits⟩, hw, hkept, hlast⟩ := hrun
  exact ⟨f0, f, f', g, c, visits, p, play_reachable h0, hf, hp, ht, hw, hkept, hlast⟩

/-- Without the action from the earlier event, the action of the state entered last is
scheduled. -/
theorem last_action_scheduled : ∃ f0 f : Framework Unit Instant Duration, Reachable f0 ∧
    (f0.startCall 0).processEvents [.tunnelRecv] = .ok f ∧
    ∃ p, ({ f with actions := f.actions.set 0 none }).actions[0]? = some p ∧ ∃ c f' g visits,
      ({ f with actions := f.actions.set 0 none }).transition 0 .normalSent = .ok (c, f') ∧
      ({ f with actions := f.actions.set 0 none }).walk 0 .normalSent = .ok (g, visits) ∧
      ((f'.runtime = g.runtime ∧ f'.actions[0]? = some (g.lastAction 0 visits p)) ↔
        p = none ∨ lastBelow visits = none ∨ EndsBelow visits ∨
          p = g.lastAction 0 visits p) := by
  have hrun : ((play [padderBoth] []).bind fun f0 =>
      ((f0.startCall 0).processEvents [.tunnelRecv]).toOption.map (·.machines.length)) =
      some 1 := by decide +kernel
  simp only [Option.bind_eq_some_iff, Option.map_eq_some_iff, toOption_eq_some] at hrun
  obtain ⟨f0, h0, f, hf, hlen⟩ := hrun
  have hreach := play_reachable h0
  have hwf : WellFormed { f with actions := f.actions.set 0 none } :=
    (hreach.during hf).anyAction 0 none
  exact ⟨f0, f, hreach, hf, transition_last_action hwf (by change 0 < f.machines.length; omega)
    .normalSent⟩

end Maybenot.Framework

import Maybenot.Proofs.Calls

namespace Maybenot.Framework
open Lib

variable {R T D : Type} [RngCore R] [Time.Duration D] [Time.Instant T D]

omit [RngCore R] in
/-- The check of the limits reads nothing that a transition touches, but for the runtime it
is given. -/
theorem belowActionLimits_congr {f g : Framework R T D} (h : g.fixed = f.fixed)
    (rt : MachineRuntime T D) (m : Machine) :
    g.belowActionLimits rt m = f.belowActionLimits rt m := by
  simp only [Framework.fixed, Prod.mk.injEq] at h
  simp only [belowActionLimits, belowLimitBlocking, belowLimitPadding, h]

/-- The action is that of a state of the machine which the limits let through, with the
accounting of the machine being `acc`. -/
def Admitted (f : Framework R T D) (mi : Nat)
    (acc : Nat × Nat × D × T × D) (a : TriggerAction D) : Prop :=
  ∃ rt m st act, ∃ rng : R, accounting rt = acc ∧ f.machines[mi]? = some m ∧
    m.states[rt.currentState]? = some st ∧ st.action = some act ∧
    f.belowActionLimits rt m = .ok true ∧ a = (triggerAction mi act rng).1

/-- What is in the machine's place was let through by the limits. -/
structure Admits (mi : Nat) (acc : Nat × Nat × D × T × D) (f : Framework R T D) : Prop where
  account : f.runtime[mi]?.map accounting = some acc
  slot : ∀ a, f.actions[mi]? = some (some a) → Admitted f mi acc a

theorem Admitted.of_fixed {f g : Framework R T D} {mi : Nat} {acc : Nat × Nat × D × T × D}
    {a : TriggerAction D} (h : Admitted f mi acc a) (hfix : g.fixed = f.fixed) :
    Admitted g mi acc a := by
  obtain ⟨rt, m, st, act, rng, hacc, hm, hst, hact, hbelow, ha⟩ := h
  have hmach : g.machines = f.machines := congrArg (·.1) hfix
  refine ⟨rt, m, st, act, rng, hacc, ?_, hst, hact, ?_, ha⟩
  · rw [hmach]
    exact hm
  · rw [belowActionLimits_congr hfix]
    exact hbelow

namespace Admits

variable {mi : Nat} {acc : Nat × Nat × D × T × D} {f g : Framework R T D}

theorem keep (h : Admits mi acc f) (hfix : g.fixed = f.fixed)
    (hacc : g.runtime[mi]?.map accounting = f.runtime[mi]?.map accounting)
    (hact : g.actions[mi]? = f.actions[mi]?) : Admits mi acc g := by
  refine ⟨hacc.trans h.account, ?_⟩
  intro a ha
  rw [hact] at ha
  exact (h.slot a ha).of_fixed hfix

theorem others (h : Admits mi acc f) {j : Nat} (hj : j ≠ mi) (ha : Apart j f g) :
    Admits mi acc g := by
  obtain ⟨hrt, hact⟩ := ha.others mi (Ne.symm hj)
  exact h.keep ha.fixed (by rw [hrt]) hact

theorem own (h : Admits mi acc f) (hf : Frame mi f g) (hact : g.actions = f.actions) :
    Admits mi acc g :=
  h.keep hf.fixed hf.account (by rw [hact])

/-- Nothing is scheduled yet. -/
theorem start {rt : MachineRuntime T D} (hrt : f.runtime[mi]? = some rt)
    (hslot : f.actions[mi]? = some none) : Admits mi (accounting rt) f := by
  refine ⟨by rw [hrt]; rfl, ?_⟩
  intro a ha
  exact absurd (hslot.symm.trans ha) (by simp)

theorem schedule (h : Admits mi acc f) {s limit : Nat} {st : State} {allowed : Bool}
    (hok : allowed = true → ∀ act, st.action = some act → ∀ rng : R,
      Admitted f mi acc (triggerAction mi act rng).1) :
    Admits mi acc (f.schedule mi s limit st allowed) := by
  have hframe := Frame.schedule f mi s limit st allowed
  refine ⟨hframe.account.trans h.account, ?_⟩
  intro a ha
  refine Admitted.of_fixed (f := f) ?_ hframe.fixed
  cases allowed with
  | false => exact h.slot a ha
  | true =>
    have hlen := (List.getElem?_eq_some_iff.mp ha).1
    rw [hframe.actionsLength] at hlen
    simp only [Framework.schedule, if_true, placeAction] at ha
    split at ha
    · simp [hlen] at ha
    · rename_i act hact
      obtain rfl : (triggerAction mi act f.rng).1 = a := by simpa [hlen] using ha
      exact hok rfl act hact f.rng

/-- What a state schedules once the limits let it. -/
theorem below (h : Admits mi acc f) {rt : MachineRuntime T D} {m : Machine} {st : State}
    {s : Nat} (hrt : f.runtime[mi]? = some rt) (hm : f.machines[mi]? = some m)
    (hst : StateOf f mi s st) (hs : rt.currentState = s)
    (hbelow : f.belowActionLimits rt m = .ok true) (act : Action) (hact : st.action = some act)
    (rng : R) : Admitted f mi acc (triggerAction mi act rng).1 := by
  have hacc : accounting rt = acc := by
    have haccount := h.account
    rw [hrt] at haccount
    exact Option.some.inj haccount
  exact ⟨rt, m, st, act, rng, hacc, hm, hs ▸ hst.machine hm, hact, hbelow, rfl⟩

end Admits

theorem Moves.admits {mi : Nat} {acc : Nat × Nat × D × T × D} {f g : Framework R T D}
    {event : Event} {c : StateChange} (hmove : Moves f mi event c g) (h : Admits mi acc f) :
    Admits mi acc g := by
  have hframe := hmove.frame
  induction hmove with
  | ended hrt hend => exact h.own hframe rfl
  | idle hrt hne hcur hs => exact h.own hframe rfl
  | stop hrt hne hcur hs => exact h.own hframe rfl
  | signal hrt hne hcur hs => exact h.own hframe rfl
  | @enter _ _ _ _ _ _ st f1 rt' _ _ hrt hne hcur hs hreal hst hin hrt' hm hbelow hz hlen =>
    have hin' := Frame.arrived hrt hin
    have h1 := h.own hin' (arrived_actions hin)
    have h2 : Admits _ acc (f1.applyCounters _ rt' st).2 :=
      h1.own (Frame.applyCounters hrt') rfl
    apply h2.schedule
    intro hallow act hact rng
    rw [hallow] at hbelow
    have hadmitted := h1.below hrt' hm (hin'.stateOf.mpr hst) (arrived_current hrt hin hrt')
      hbelow act hact rng
    exact hadmitted.of_fixed (Frame.applyCounters hrt').fixed
  | chain hrt hne hcur hs hreal hst hin hrt' hm hbelow hz hnest ha hafter ih =>
    have hin' := Frame.arrived hrt hin
    have h1 := h.own hin' (arrived_actions hin)
    have h2 := ih (h1.own (Frame.applyCounters hrt') rfl) hnest.frame
    apply h2.schedule
    intro hallow act hact rng
    rw [(Bool.and_eq_true_iff.mp hallow).2] at hbelow
    have hadmitted := h1.below hrt' hm (hin'.stateOf.mpr hst) (arrived_current hrt hin hrt')
      hbelow act hact rng
    exact hadmitted.of_fixed ((Frame.applyCounters hrt').trans hnest.frame).fixed

/-- A transition of any machine leaves the accounting of all machines. -/
theorem Moves.accounts {mi : Nat} {f g : Framework R T D} {event : Event} {c : StateChange}
    (h : Moves f mi event c g) (j : Nat) :
    g.runtime[j]?.map accounting = f.runtime[j]?.map accounting := by
  by_cases hj : j = mi
  · subst hj
    exact h.frame.account
  · rw [(h.frame.others j hj).1]

/-- What a machine's own turn does to its accounting. -/
theorem Turn.account {mi : Nat} {f f' : Framework R T D} {e : TriggerEvent} {blocked : D}
    {rt : MachineRuntime T D} (ht : Turn e blocked f mi f') (hrt : f.runtime[mi]? = some rt) :
    f'.runtime[mi]?.map accounting =
      some (accounting (if e.concerns mi then rt.recorded e blocked else rt)) := by
  have hmoved {g : Framework R T D} {change : StateChange} (hcon : e.concerns mi = true)
      (hm0 : Moves (f.setRuntime mi (rt.recorded e blocked)) mi e.event change g) :
      g.runtime[mi]?.map accounting =
        some (accounting (if e.concerns mi then rt.recorded e blocked else rt)) := by
    rw [hm0.frame.account, if_pos hcon]
    exact congrArg (Option.map accounting) (set_getElem? hrt)
  cases ht with
  | apart hcon =>
    rw [if_neg (by simp [hcon]), hrt]
    rfl
  | moved hcon hrt0 hm0 hrt' hkeep =>
    obtain rfl := Option.some.inj (hrt.symm.trans hrt0)
    exact hmoved hcon hm0
  | @used _ g rt' _ hcon hrt0 hl hm0 hrt' hne hst hu =>
    obtain rfl := Option.some.inj (hrt.symm.trans hrt0)
    have hdec : Frame mi g (g.decremented mi rt') := Frame.setRuntime hrt' rfl
    exact hdec.account.trans (hmoved hcon hm0)
  | @reached _ g rt' _ _ _ hcon hrt0 hl hm0 hrt' hne hst hu hlen hm' =>
    obtain rfl := Option.some.inj (hrt.symm.trans hrt0)
    have hdec : Frame mi g (g.decremented mi rt') := Frame.setRuntime hrt' rfl
    exact (hm'.frame.account.trans hdec.account).trans (hmoved hcon hm0)

/-- What an event does to the accounting of each machine. -/
theorem processEvent_account {mi : Nat} {f f' : Framework R T D} {e : TriggerEvent}
    {rt : MachineRuntime T D} (hrt : f.runtime[mi]? = some rt) (h : f.processEvent e = .ok f') :
    f'.runtime[mi]?.map accounting =
      some (accounting (if e.concerns mi then rt.recorded e f.blockedFor else rt)) := by
  refine processEvent_own (P := fun g => g.runtime[mi]? = some rt)
    (Q := fun g => g.runtime[mi]?.map accounting =
      some (accounting (if e.concerns mi then rt.recorded e f.blockedFor else rt)))
    (List.getElem?_eq_some_iff.mp hrt).1 ?_ ?_ ?_ ?_ h
  · intro i g g' hi hg hturn
    exact (hturn.apart_of.others mi hi).1.trans hg
  · intro g g' hg hturn
    exact hturn.account hg
  · intro i g g' hi hg hturn
    rw [(hturn.apart_of.others mi hi).1]
    exact hg
  · rw [recorded_runtime]
    exact hrt

/-- The machine's own turn, when nothing is scheduled for it yet. -/
theorem Turn.admits {mi : Nat} {f f' : Framework R T D} {e : TriggerEvent} {blocked : D}
    {rt : MachineRuntime T D} (ht : Turn e blocked f mi f') (hrt : f.runtime[mi]? = some rt)
    (hslot : f.actions[mi]? = some none) :
    Admits mi (accounting (if e.concerns mi then rt.recorded e blocked else rt)) f' := by
  have hmoved {g : Framework R T D} {change : StateChange} (hcon : e.concerns mi = true)
      (hm0 : Moves (f.setRuntime mi (rt.recorded e blocked)) mi e.event change g) :
      Admits mi (accounting (if e.concerns mi then rt.recorded e blocked else rt)) g := by
    rw [if_pos hcon]
    exact hm0.admits (.start (set_getElem? hrt) hslot)
  cases ht with
  | apart hcon =>
    rw [if_neg (by simp [hcon])]
    exact .start hrt hslot
  | moved hcon hrt0 hm0 hrt' hkeep =>
    obtain rfl := Option.some.inj (hrt.symm.trans hrt0)
    exact hmoved hcon hm0
  | used hcon hrt0 hl hm0 hrt' hne hst hu =>
    obtain rfl := Option.some.inj (hrt.symm.trans hrt0)
    exact (hmoved hcon hm0).own (Frame.setRuntime hrt' rfl) rfl
  | @reached _ g rt' _ _ _ hcon hrt0 hl hm0 hrt' hne hst hu hlen hm' =>
    obtain rfl := Option.some.inj (hrt.symm.trans hrt0)
    have h1 := hmoved hcon hm0
    have hdec : Frame mi g (g.decremented mi rt') := Frame.setRuntime hrt' rfl
    apply hm'.admits
    refine ⟨hdec.account.trans h1.account, ?_⟩
    intro a ha
    exact absurd ha (by simp [cleared, hlen])

/-- After the turns of all machines at an event. -/
theorem processEvent_admits {mi : Nat} {f f' : Framework R T D} {e : TriggerEvent}
    {rt : MachineRuntime T D} (hrt : f.runtime[mi]? = some rt)
    (hslot : f.actions[mi]? = some none) (h : f.processEvent e = .ok f') :
    Admits mi (accounting (if e.concerns mi then rt.recorded e f.blockedFor else rt)) f' := by
  refine processEvent_own
    (P := fun g => g.runtime[mi]? = some rt ∧ g.actions[mi]? = some none)
    (Q := Admits mi (accounting (if e.concerns mi then rt.recorded e f.blockedFor else rt)))
    (List.getElem?_eq_some_iff.mp hrt).1 ?_ ?_ ?_ ?_ h
  · intro i g g' hi hg hturn
    obtain ⟨hrt', hact'⟩ := hturn.apart_of.others mi hi
    exact ⟨hrt'.trans hg.1, hact'.trans hg.2⟩
  · intro g g' hg hturn
    exact hturn.admits hg.1 hg.2
  · intro i g g' hi hg hturn
    exact hg.others (Ne.symm hi) hturn.apart_of
  · rw [recorded_runtime, recorded_actions]
    exact ⟨hrt, hslot⟩

theorem call_one {f f' : Framework R T D} {e : TriggerEvent} {now : T}
    {actions : List (TriggerAction D)} (h : f.triggerEvents [e] now = .ok (actions, f')) :
    ∃ f1, (f.startCall now).processEvent e = .ok f1 ∧ f1.deliverSignal = .ok f' := by
  obtain ⟨f1, h1, hd, _⟩ := triggerEvents_ok h
  exact ⟨f1, by simpa [processEvents, bind_ok] using h1, hd⟩

/-- Of what no transition touches, a call with one event does the framework's accounting. -/
theorem call_fixed {f f' : Framework R T D} {e : TriggerEvent} {now : T}
    {actions : List (TriggerAction D)} (h : f.triggerEvents [e] now = .ok (actions, f')) :
    f'.fixed = ((f.startCall now).recorded e).fixed := by
  obtain ⟨f1, h1, hd⟩ := call_one h
  refine deliverSignal_keeps (P := fun g => g.fixed = _) ?_ ?_ (processEvent_fixed h1) hd
  · intro g hg
    exact hg
  · intro g j c g' hg hmove
    exact hmove.frame.fixed.trans hg

/-- A call with one event does the accounting of a machine, and the limits let through all
that it returns for the machine. -/
theorem call_admits {mi : Nat} {f f' : Framework R T D} {e : TriggerEvent} {now : T}
    {actions : List (TriggerAction D)} {rt : MachineRuntime T D}
    (hrt : f.runtime[mi]? = some rt) (hmi : mi < f.actions.length)
    (h : f.triggerEvents [e] now = .ok (actions, f')) :
    Admits mi (accounting (if e.concerns mi then rt.recorded e (f.startCall now).blockedFor
      else rt)) f' := by
  obtain ⟨f1, h1, hd⟩ := call_one h
  have hempty : (f.startCall now).actions[mi]? = some none := by
    simp [startCall, hmi]
  have hend := processEvent_admits (f := f.startCall now) hrt hempty h1
  refine deliverSignal_keeps (P := Admits mi _) ?_ ?_ hend hd
  · intro g hg
    exact hg.keep rfl rfl rfl
  · intro g j c g' hg hmove
    by_cases hj : j = mi
    · subst hj
      exact hmove.admits hg
    · exact hg.others hj hmove.frame.toApart

end Maybenot.Framework

import Maybenot.Framework

namespace Maybenot.Framework
open Lib

variable {R T D : Type}

theorem at?_ok {xs : List α} {i : Nat} {x : α} : at? xs i = .ok x ↔ xs[i]? = some x := by
  unfold at?
  split <;> simp_all

theorem set_getElem? {xs : List α} {i : Nat} {x y : α} (h : xs[i]? = some x) :
    (xs.set i y)[i]? = some y := by
  obtain ⟨hi, _⟩ := List.getElem?_eq_some_iff.mp h
  simp [hi]

theorem exists_getElem? {xs : List α} {i : Nat} (h : i < xs.length) : ∃ x, xs[i]? = some x :=
  ⟨_, List.getElem?_eq_getElem h⟩

theorem setAction_ok {f f' : Framework R T D} {mi : Nat} {a : Option (TriggerAction D)} :
    f.setAction mi a = .ok f' ↔
      mi < f.actions.length ∧ f' = { f with actions := f.actions.set mi a } := by
  unfold setAction
  split <;> simp_all [eq_comm]

@[simp] theorem note_runtime (f : Framework R T D) (s : Step) :
    (f.note s).runtime = f.runtime := rfl
@[simp] theorem note_machines (f : Framework R T D) (s : Step) :
    (f.note s).machines = f.machines := rfl
@[simp] theorem note_actions (f : Framework R T D) (s : Step) :
    (f.note s).actions = f.actions := rfl
@[simp] theorem note_rng (f : Framework R T D) (s : Step) : (f.note s).rng = f.rng := rfl

/-- State `s` of machine `mi` is `st`. -/
def StateOf (f : Framework R T D) (mi s : Nat) (st : State) : Prop :=
  ∃ m, f.machines[mi]? = some m ∧ m.states[s]? = some st

theorem StateOf.unique {f : Framework R T D} {mi s : Nat} {st st' : State}
    (h : StateOf f mi s st) (h' : StateOf f mi s st') : st = st' := by
  obtain ⟨m, hm, hs⟩ := h
  obtain ⟨m', hm', hs'⟩ := h'
  obtain rfl := Option.some.inj (hm.symm.trans hm')
  exact Option.some.inj (hs.symm.trans hs')

theorem StateOf.machine {f : Framework R T D} {mi s : Nat} {st : State} {m : Machine}
    (h : StateOf f mi s st) (hm : f.machines[mi]? = some m) : m.states[s]? = some st := by
  obtain ⟨m', hm', hs⟩ := h
  obtain rfl := Option.some.inj (hm.symm.trans hm')
  exact hs

/-- What no transition touches. -/
def fixed (f : Framework R T D) :=
  (f.machines, f.currentTime, f.maxPaddingFrac, f.normalSentPackets, f.paddingSentPackets,
    f.maxBlockingFrac, f.blockingDuration, f.blockingStarted, f.blockingActive, f.frameworkStart)

/-- The accounting of a machine, which only events change. -/
def accounting (rt : MachineRuntime T D) :=
  (rt.paddingSent, rt.normalSent, rt.blockingDuration, rt.machineStart, rt.allowedBlockedMicrosec)

/-- What the steps of machine `mi` leave alone: the framework's own accounting and the
other machines altogether. -/
structure Apart (mi : Nat) (f f' : Framework R T D) : Prop where
  fixed : f'.fixed = f.fixed
  runtimeLength : f'.runtime.length = f.runtime.length
  actionsLength : f'.actions.length = f.actions.length
  others : ∀ j, j ≠ mi → f'.runtime[j]? = f.runtime[j]? ∧ f'.actions[j]? = f.actions[j]?

/-- A transition of `mi` leaves the accounting of the machine alone as well. -/
structure Frame (mi : Nat) (f f' : Framework R T D) : Prop extends Apart mi f f' where
  account : f'.runtime[mi]?.map accounting = f.runtime[mi]?.map accounting

namespace Apart

theorem refl (mi : Nat) (f : Framework R T D) : Apart mi f f :=
  ⟨rfl, rfl, rfl, fun _ _ => ⟨rfl, rfl⟩⟩

theorem trans {mi : Nat} {f g h : Framework R T D} (h1 : Apart mi f g) (h2 : Apart mi g h) :
    Apart mi f h :=
  ⟨h2.fixed.trans h1.fixed, h2.runtimeLength.trans h1.runtimeLength,
    h2.actionsLength.trans h1.actionsLength, fun j hj =>
      ⟨(h2.others j hj).1.trans (h1.others j hj).1, (h2.others j hj).2.trans (h1.others j hj).2⟩⟩

theorem machines {mi : Nat} {f g : Framework R T D} (h : Apart mi f g) :
    g.machines = f.machines := congrArg (·.1) h.fixed

theorem maxPaddingFrac {mi : Nat} {f g : Framework R T D} (h : Apart mi f g) :
    g.maxPaddingFrac = f.maxPaddingFrac := congrArg (·.2.2.1) h.fixed

theorem stateOf {mi j s : Nat} {f g : Framework R T D} {st : State} (h : Apart mi f g) :
    StateOf g j s st ↔ StateOf f j s st := by
  unfold StateOf
  rw [h.machines]

theorem setRuntime (mi : Nat) (f : Framework R T D) (rt : MachineRuntime T D) :
    Apart mi f (f.setRuntime mi rt) :=
  ⟨rfl, by simp [Framework.setRuntime], rfl,
    fun j hj => ⟨by simp [Framework.setRuntime, Ne.symm hj], rfl⟩⟩

theorem setActions (mi : Nat) (f : Framework R T D) (a : Option (TriggerAction D)) :
    Apart mi f { f with actions := f.actions.set mi a } :=
  ⟨rfl, rfl, by simp, fun j hj => ⟨rfl, by simp [Ne.symm hj]⟩⟩

end Apart

namespace Frame

theorem refl (mi : Nat) (f : Framework R T D) : Frame mi f f := ⟨Apart.refl mi f, rfl⟩

theorem trans {mi : Nat} {f g h : Framework R T D} (h1 : Frame mi f g) (h2 : Frame mi g h) :
    Frame mi f h :=
  ⟨h1.toApart.trans h2.toApart, h2.account.trans h1.account⟩

/-- A step that touches neither the runtimes nor the actions. -/
theorem same {f f' : Framework R T D} (mi : Nat) (hf : f'.fixed = f.fixed)
    (hr : f'.runtime = f.runtime) (ha : f'.actions = f.actions) : Frame mi f f' :=
  ⟨⟨hf, by rw [hr], by rw [ha], fun _ _ => ⟨by rw [hr], by rw [ha]⟩⟩, by rw [hr]⟩

/-- A new runtime with the old accounting. -/
theorem setRuntime {mi : Nat} {f : Framework R T D} {rt rt' : MachineRuntime T D}
    (hrt : f.runtime[mi]? = some rt) (ha : accounting rt' = accounting rt) :
    Frame mi f (f.setRuntime mi rt') := by
  refine ⟨Apart.setRuntime mi f rt', ?_⟩
  rw [hrt]
  exact congrArg (Option.map accounting) (set_getElem? hrt) |>.trans (congrArg some ha)

theorem note (mi : Nat) (f : Framework R T D) (s : Step) : Frame mi f (f.note s) :=
  same mi rfl rfl rfl

theorem setRng (mi : Nat) (f : Framework R T D) (rng : R) : Frame mi f { f with rng := rng } :=
  same mi rfl rfl rfl

theorem setActions (mi : Nat) (f : Framework R T D) (a : Option (TriggerAction D)) :
    Frame mi f { f with actions := f.actions.set mi a } :=
  ⟨Apart.setActions mi f a, rfl⟩

end Frame

section Sampling
variable [RngCore R]

/-- The start of a transition: it is noted, and the next state is sampled. -/
def sampleNext (f : Framework R T D) (mi : Nat) (event : Event) (st : State) :
    Framework R T D :=
  { f.note (.performed mi event) with rng := (st.sampleState event f.rng).2 }

/-- A transition's move into a real state, up to the counter update. -/
def arrive (f : Framework R T D) (mi s : Nat) (rt : MachineRuntime T D) (st : State)
    (limit : Nat) : Framework R T D :=
  ((f.note (.sampled mi s)).enterState mi rt s st).note (.entered mi s limit)

@[simp] theorem sampleNext_runtime (f : Framework R T D) (mi : Nat) (event : Event)
    (st : State) : (f.sampleNext mi event st).runtime = f.runtime := rfl

/-- After the move the machine is in the state it went to. -/
theorem enterState_current {f : Framework R T D} {mi s : Nat} {rt rt' : MachineRuntime T D}
    {st : State} (hrt : f.runtime[mi]? = some rt)
    (h : (f.enterState mi rt s st).runtime[mi]? = some rt') : rt'.currentState = s := by
  unfold enterState at h
  split at h
  · rename_i he
    rw [hrt] at h
    exact Option.some.inj h ▸ he
  · split at h
    all_goals
      simp only [Framework.setRuntime, set_getElem? hrt, Option.some.injEq] at h
      subst h
      rfl

theorem zeroBudget_arrive (f : Framework R T D) (mi s : Nat) (rt : MachineRuntime T D)
    (st : State) (limit : Nat) : (f.arrive mi s rt st limit).zeroBudget = f.zeroBudget :=
  zeroBudget_enterState (f.note (.sampled mi s)) mi rt s st

namespace Frame

theorem sampleNext (f : Framework R T D) (mi : Nat) (event : Event) (st : State) :
    Frame mi f (f.sampleNext mi event st) := same mi rfl rfl rfl

theorem enterState {f : Framework R T D} {mi s : Nat} {rt : MachineRuntime T D} {st : State}
    (hrt : f.runtime[mi]? = some rt) : Frame mi f (f.enterState mi rt s st) := by
  unfold Framework.enterState
  split
  · exact Frame.refl mi f
  · split
    · exact Frame.setRuntime hrt rfl
    · exact (Frame.setRng mi f _).trans (Frame.setRuntime hrt rfl)

theorem arrive {f : Framework R T D} {mi s limit : Nat} {rt : MachineRuntime T D} {st : State}
    (hrt : f.runtime[mi]? = some rt) : Frame mi f (f.arrive mi s rt st limit) :=
  ((Frame.note mi f _).trans (Frame.enterState hrt)).trans (Frame.note mi _ _)

theorem applyCounters {f : Framework R T D} {mi : Nat} {rt : MachineRuntime T D}
    {st : State} (hrt : f.runtime[mi]? = some rt) : Frame mi f (f.applyCounters mi rt st).2 := by
  have h (a b : Nat) : Frame mi f (f.setRuntime mi { rt with counterA := a, counterB := b }) :=
    Frame.setRuntime hrt rfl
  exact ⟨⟨rfl, (h _ _).runtimeLength, rfl, (h _ _).others⟩, (h _ _).account⟩

end Frame

theorem Frame.arrived {f f1 : Framework R T D} {mi s limit : Nat} {event : Event}
    {rt : MachineRuntime T D} {cur st : State} (hrt : f.runtime[mi]? = some rt)
    (hin : f1 = (f.sampleNext mi event cur).arrive mi s rt st limit) : Frame mi f f1 :=
  hin ▸ (Frame.sampleNext f mi event cur).trans (Frame.arrive hrt)

theorem arrived_actions {f f1 : Framework R T D} {mi s limit : Nat} {event : Event}
    {rt : MachineRuntime T D} {cur st : State}
    (hin : f1 = (f.sampleNext mi event cur).arrive mi s rt st limit) : f1.actions = f.actions := by
  subst hin
  unfold Framework.arrive Framework.enterState
  split
  · rfl
  · split <;> rfl

theorem arrived_current {f f1 : Framework R T D} {mi s limit : Nat} {event : Event}
    {rt rt' : MachineRuntime T D} {cur st : State} (hrt : f.runtime[mi]? = some rt)
    (hin : f1 = (f.sampleNext mi event cur).arrive mi s rt st limit)
    (hrt' : f1.runtime[mi]? = some rt') : rt'.currentState = s := by
  subst hin
  exact enterState_current (f := (f.sampleNext mi event cur).note (.sampled mi s)) hrt hrt'

/-- Going to the state the machine is in changes nothing. -/
theorem arrived_same {f f1 : Framework R T D} {mi limit : Nat} {event : Event}
    {rt : MachineRuntime T D} {cur st : State}
    (hin : f1 = (f.sampleNext mi event cur).arrive mi rt.currentState rt st limit) :
    f1.runtime = f.runtime := by
  subst hin
  simp [Framework.arrive, Framework.enterState]

end Sampling

section Scheduling
variable [RngCore R] [Time.Duration D]

/-- Put the action of a state in the machine's place. -/
def placeAction (f : Framework R T D) (mi : Nat) (st : State) : Framework R T D :=
  match st.action with
  | none => { f with actions := f.actions.set mi none }
  | some a => { f with
      rng := (triggerAction (D := D) mi a f.rng).2
      actions := f.actions.set mi (some (triggerAction mi a f.rng).1) }

/-- The end of a transition to a real state: the action is scheduled if the limits
and the counters allow it. -/
def schedule (f : Framework R T D) (mi s limit : Nat) (st : State) (allowed : Bool) :
    Framework R T D :=
  if allowed then (f.note (.scheduled mi s limit)).placeAction mi st else f

@[simp] theorem schedule_runtime (f : Framework R T D) (mi s limit : Nat) (st : State)
    (allowed : Bool) : (f.schedule mi s limit st allowed).runtime = f.runtime := by
  unfold schedule placeAction
  split
  · split <;> rfl
  · rfl

theorem Frame.schedule (f : Framework R T D) (mi s limit : Nat) (st : State)
    (allowed : Bool) : Frame mi f (f.schedule mi s limit st allowed) := by
  unfold Framework.schedule
  split
  · apply (Frame.note mi f (.scheduled mi s limit)).trans
    unfold placeAction
    split
    · exact Frame.setActions mi _ none
    · have h (a : TriggerAction D) := Frame.setActions mi f (some a)
      exact ⟨⟨rfl, rfl, (h _).actionsLength, (h _).others⟩, rfl⟩
  · exact Frame.refl mi f

theorem scheduleAction_ok {f f' : Framework R T D} {mi s : Nat}
    (h : f.scheduleAction mi s = .ok f') :
    ∃ st, StateOf f mi s st ∧ mi < f.actions.length ∧ f' = f.placeAction mi st := by
  simp only [scheduleAction, bind_ok, at?_ok, Machine.stateAt] at h
  obtain ⟨m, hm, st, hst, h⟩ := h
  refine ⟨st, ⟨m, hm, hst⟩, ?_⟩
  cases ha : st.action with
  | none =>
    simp only [ha, setAction_ok] at h
    exact ⟨h.1, by simp only [placeAction, ha, h.2]⟩
  | some a =>
    simp only [ha, setAction_ok] at h
    exact ⟨h.1, by simp only [placeAction, ha, h.2]⟩

theorem scheduleIf_ok {f f' : Framework R T D} {mi s limit : Nat} {st : State} {allowed : Bool}
    (hst : StateOf f mi s st) (h : f.scheduleIf allowed mi s limit = .ok f') :
    (allowed = true → mi < f.actions.length) ∧ f' = f.schedule mi s limit st allowed := by
  cases allowed with
  | false =>
    obtain rfl := pure_ok.mp h
    exact ⟨by simp, rfl⟩
  | true =>
    obtain ⟨st', hst', hlen, he⟩ := scheduleAction_ok h
    obtain rfl := StateOf.unique hst hst'
    exact ⟨fun _ => hlen, he⟩

theorem scheduleIf_of {f : Framework R T D} {mi s limit : Nat} {st : State} {allowed : Bool}
    (hst : StateOf f mi s st) (hlen : allowed = true → mi < f.actions.length) :
    f.scheduleIf allowed mi s limit = .ok (f.schedule mi s limit st allowed) := by
  cases allowed with
  | false => rfl
  | true =>
    obtain ⟨m, hm, hs⟩ := hst
    simp only [scheduleIf, schedule, if_true, scheduleAction, Machine.stateAt, note_machines,
      at?_ok.mpr hm, at?_ok.mpr hs, ok_bind]
    cases ha : st.action with
    | none =>
      simp only [placeAction, ha, setAction_ok]
      exact ⟨hlen rfl, trivial⟩
    | some a =>
      simp only [placeAction, ha, setAction_ok]
      exact ⟨hlen rfl, rfl⟩

end Scheduling

end Maybenot.Framework

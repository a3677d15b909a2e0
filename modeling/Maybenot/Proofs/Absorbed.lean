import Maybenot.Proofs.Chain

namespace Maybenot.Framework
open Lib

variable {R T D : Type} [RngCore R] [Time.Duration D] [Time.Instant T D]

section Without

/-- The turn of a machine that accounts for an event and does not react to it. -/
def accountOnly (e : TriggerEvent) (blocked : D) (f : Framework R T D) (mi : Nat) :
    Exec (Framework R T D) :=
  if e.concerns mi then do
    let rt ← at? f.runtime mi
    return (f.setRuntime mi (rt.recorded e blocked)).note (.performed mi e.event)
  else pure f

/-- The turn of a machine, of which `mi` does not react. -/
def turnWithout (mi : Nat) (e : TriggerEvent) (blocked : D) (f : Framework R T D) (i : Nat) :
    Exec (Framework R T D) :=
  if i = mi then accountOnly e blocked f i else turn e blocked f i

def processEventWithout (mi : Nat) (f : Framework R T D) (e : TriggerEvent) :
    Exec (Framework R T D) :=
  (f.recorded e).eachMachine (turnWithout mi e f.blockedFor)

def signalWithout (mi : Nat) (f : Framework R T D) (i : Nat) : Exec (Framework R T D) :=
  if i = mi then pure (f.note (.performed i .signal)) else transitionOnly .signal f i

/-- The delivery of the pending signal, where `signal` is what a machine does with it. -/
def deliverSignalBy (signal : Framework R T D → Nat → Exec (Framework R T D))
    (f : Framework R T D) : Exec (Framework R T D) :=
  match f.signalPending with
  | none => pure f
  | some target => do
    let excluded := match target with
      | .all => none
      | .allExcept excluded => some excluded
    let f ← f.taken.eachMachine fun f i => if excluded = some i then pure f else signal f i
    let again := f.signalPending.isSome
    match excluded with
    | some excluded => if again then signal f.taken excluded else pure f.taken
    | none => pure f.taken

/-- A call in which `mi` reacts neither to events nor to signals. -/
def triggerEventsWithout (mi : Nat) (f : Framework R T D) (events : List TriggerEvent) (now : T) :
    Exec (List (TriggerAction D) × Framework R T D) := do
  let f ← events.foldlM (processEventWithout mi) (f.startCall now)
  let f ← f.deliverSignalBy (signalWithout mi)
  return (f.actions.filterMap id, f)

def runWithout (mi : Nat) (f : Framework R T D) :
    List (List TriggerEvent × T) → Exec (List (List (TriggerAction D)) × Framework R T D)
  | [] => pure ([], f)
  | c :: cs => do
    let (actions, f) ← f.triggerEventsWithout mi c.1 c.2
    let (rest, f) ← runWithout mi f cs
    return (actions :: rest, f)

theorem deliverSignal_by (f : Framework R T D) :
    f.deliverSignal = f.deliverSignalBy (transitionOnly .signal) := rfl

end Without

/-- What a machine that has stopped keeps: its state, its limit and its counters. -/
def kept (rt : MachineRuntime T D) := (rt.currentState, rt.stateLimit, rt.counterA, rt.counterB)

omit [RngCore R] [Time.Instant T D] in
theorem recorded_kept (rt : MachineRuntime T D) (e : TriggerEvent) (blocked : D) :
    kept (rt.recorded e blocked) = kept rt := by
  cases e with
  | blockingEnd =>
    simp only [MachineRuntime.recorded]
    split <;> rfl
  | _ => rfl

/-- A machine has stopped as `rt`, and it has no action. -/
structure Stopped (mi : Nat) (rt : MachineRuntime T D) (f : Framework R T D) : Prop where
  runtime : ∃ rt', f.runtime[mi]? = some rt' ∧ kept rt' = kept rt
  ended : rt.currentState = stateEnd
  action : ∀ a, f.actions[mi]? ≠ some (some a)

namespace Stopped

variable {mi : Nat} {rt : MachineRuntime T D} {f g : Framework R T D}

omit [RngCore R] [Time.Duration D] [Time.Instant T D] in
/-- What others do does not touch it. -/
theorem apart {i : Nat} (h : Stopped mi rt f) (hi : i ≠ mi) (hg : Apart i f g) :
    Stopped mi rt g := by
  obtain ⟨hruntime, hactions⟩ := hg.others mi (Ne.symm hi)
  refine ⟨?_, h.ended, ?_⟩
  · rw [hruntime]
    exact h.runtime
  · rw [hactions]
    exact h.action

omit [RngCore R] [Time.Duration D] [Time.Instant T D] in
theorem same (h : Stopped mi rt f) (hr : g.runtime = f.runtime) (ha : g.actions = f.actions) :
    Stopped mi rt g :=
  ⟨hr ▸ h.runtime, h.ended, ha ▸ h.action⟩

/-- It makes no transition, whatever the event. -/
theorem transition (h : Stopped mi rt f) (event : Event) :
    f.transition mi event = .ok (.unchanged, f.note (.performed mi event)) := by
  obtain ⟨rt', hrt', hkept⟩ := h.runtime
  have hend : rt'.currentState = stateEnd := (congrArg (·.1) hkept).trans h.ended
  exact (Moves.ended hrt' hend).transition

theorem transitionOnly (h : Stopped mi rt f) (event : Event) :
    Framework.transitionOnly event f mi = .ok (f.note (.performed mi event)) :=
  bind_eq (h.transition event)

theorem transitionLimited (h : Stopped mi rt f) (event : Event) :
    Framework.transitionLimited event f mi = .ok (f.note (.performed mi event)) := by
  obtain ⟨rt', hrt', hkept⟩ := h.runtime
  have hend : rt'.currentState = stateEnd := (congrArg (·.1) hkept).trans h.ended
  apply (bind_eq (h.transition event)).trans
  apply (bind_eq (at?_ok.mpr hrt')).trans
  rw [if_neg fun hand => hand.2 hend]
  rfl

/-- A transition of any machine leaves it stopped. -/
theorem moves (h : Stopped mi rt f) {i : Nat} {event : Event} {c : StateChange}
    (hm : Moves f i event c g) : Stopped mi rt g := by
  by_cases hi : i = mi
  · subst hi
    have hsame := hm.transition.symm.trans (h.transition event)
    cases Except.ok.inj hsame
    exact h.same rfl rfl
  · exact h.apart hi hm.frame.toApart

omit [RngCore R] [Time.Instant T D] in
theorem recorded (h : Stopped mi rt f) {rt' : MachineRuntime T D} (hrt' : f.runtime[mi]? = some rt')
    (e : TriggerEvent) (blocked : D) : Stopped mi rt (f.setRuntime mi (rt'.recorded e blocked)) := by
  obtain ⟨rt1, hrt1, hkept⟩ := h.runtime
  obtain rfl := Option.some.inj (hrt'.symm.trans hrt1)
  refine ⟨⟨_, set_getElem? hrt', ?_⟩, h.ended, h.action⟩
  exact (recorded_kept rt' e blocked).trans hkept

/-- In its turn it does its accounting only. -/
theorem turn (h : Stopped mi rt f) (e : TriggerEvent) (blocked : D) :
    Framework.turn e blocked f mi = accountOnly e blocked f mi := by
  unfold Framework.turn accountOnly
  by_cases hc : e.concerns mi = true
  · obtain ⟨rt', hrt', hkept⟩ := h.runtime
    have hset := h.recorded hrt' e blocked
    rw [if_pos hc, if_pos hc, bind_eq (at?_ok.mpr hrt'), bind_eq (at?_ok.mpr hrt')]
    by_cases hl : e.limits mi = true
    · rw [if_pos hl, hset.transitionLimited]
      rfl
    · rw [if_neg hl, hset.transitionOnly]
      rfl
  · rw [if_neg hc, if_neg hc]

omit [RngCore R] [Time.Instant T D] in
theorem accounted (h : Stopped mi rt f) {e : TriggerEvent} {blocked : D}
    (hg : accountOnly e blocked f mi = .ok g) : Stopped mi rt g := by
  unfold accountOnly at hg
  by_cases hc : e.concerns mi = true
  · rw [if_pos hc] at hg
    obtain ⟨rt', hrt', hg⟩ := bind_ok.mp hg
    obtain rfl := pure_ok.mp hg
    exact (h.recorded (at?_ok.mp hrt') e blocked).same rfl rfl
  · rw [if_neg hc] at hg
    exact pure_ok.mp hg ▸ h

/-- A turn of any machine leaves it stopped. -/
theorem turns (h : Stopped mi rt f) {e : TriggerEvent} {blocked : D} {i : Nat}
    (hg : Framework.turn e blocked f i = .ok g) : Stopped mi rt g := by
  by_cases hi : i = mi
  · subst hi
    rw [h.turn] at hg
    exact h.accounted hg
  · exact h.apart hi (turn_ok hg).apart_of

/-- A signal to any machine leaves it stopped. -/
theorem signals (h : Stopped mi rt f) {i : Nat}
    (hg : Framework.transitionOnly .signal f i = .ok g) : Stopped mi rt g := by
  obtain ⟨_, hm⟩ := transitionOnly_ok hg
  exact h.moves hm

theorem turnWithout_eq (h : Stopped mi rt f) (e : TriggerEvent) (blocked : D) (i : Nat) :
    Framework.turn e blocked f i = turnWithout mi e blocked f i := by
  unfold turnWithout
  by_cases hi : i = mi
  · rw [if_pos hi, hi, h.turn]
  · rw [if_neg hi]

theorem signalWithout_eq (h : Stopped mi rt f) (i : Nat) :
    Framework.transitionOnly .signal f i = signalWithout mi f i := by
  unfold signalWithout
  by_cases hi : i = mi
  · rw [if_pos hi, hi, h.transitionOnly]
    rfl
  · rw [if_neg hi]

/-- An event is processed as if the machine did not react, and leaves it stopped. -/
theorem event (h : Stopped mi rt f) (e : TriggerEvent) :
    f.processEvent e = processEventWithout mi f e ∧
      ∀ g, f.processEvent e = .ok g → Stopped mi rt g := by
  have hstart : Stopped mi rt (f.recorded e) := h.same (recorded_runtime f e) (recorded_actions f e)
  rw [processEvent_eq]
  constructor
  · exact foldlM_congr (fun g i _ hg => hg.turnWithout_eq e _ i)
      (fun g i _ g' hg hturn => hg.turns hturn) hstart
  · intro g hg
    exact foldlM_keeps (fun g i _ g' hg hturn => hg.turns hturn) hstart hg

omit [RngCore R] [Time.Duration D] [Time.Instant T D] in
theorem taken (h : Stopped mi rt f) : Stopped mi rt f.taken := h.same rfl rfl

/-- A round of signals goes as if the machine did not react, and leaves it stopped. -/
theorem round (h : Stopped mi rt f) (excluded : Option Nat) :
    (f.eachMachine fun g i =>
        if excluded = some i then pure g else Framework.transitionOnly .signal g i) =
      (f.eachMachine fun g i =>
        if excluded = some i then pure g else signalWithout mi g i) ∧
      ∀ g, f.signalAll excluded = .ok g → Stopped mi rt g := by
  have hkeep : ∀ (g : Framework R T D) i g', Stopped mi rt g →
      (if excluded = some i then pure g else Framework.transitionOnly .signal g i) = .ok g' →
        Stopped mi rt g' := by
    intro g i g' hg hstep
    split at hstep
    · exact pure_ok.mp hstep ▸ hg
    · exact hg.signals hstep
  constructor
  · apply foldlM_congr (P := Stopped mi rt) _ (fun g i _ g' => hkeep g i g') h
    intro g i _ hg
    rw [hg.signalWithout_eq]
  · intro g hg
    exact foldlM_keeps (P := Stopped mi rt) (fun g i _ g' => hkeep g i g') h hg

/-- The pending signal is delivered as if the machine did not react, and leaves it stopped. -/
theorem delivery (h : Stopped mi rt f) :
    f.deliverSignal = f.deliverSignalBy (signalWithout mi) ∧
      ∀ g, f.deliverSignal = .ok g → Stopped mi rt g := by
  constructor
  · rw [deliverSignal_by]
    unfold deliverSignalBy
    cases f.signalPending with
    | none => rfl
    | some target =>
      cases target with
      | all =>
        apply bind_same (h.taken.round none).1
        intro g _
        rfl
      | allExcept x =>
        obtain ⟨hround, hstopped⟩ := h.taken.round (some x)
        apply bind_same hround
        intro g hg
        have hg' := (hstopped g hg).taken
        dsimp only
        rw [hg'.signalWithout_eq]
  · intro g hg
    exact deliverSignal_keeps (P := Stopped mi rt) (fun _ hg => hg.taken)
      (fun _ _ _ _ hg hm => hg.moves hm) h hg

/-- A call goes as if the machine did not react, and leaves it stopped. -/
theorem call {now : T} (h : Stopped mi rt (f.startCall now)) (events : List TriggerEvent) :
    f.triggerEvents events now = f.triggerEventsWithout mi events now ∧
      ∀ actions g, f.triggerEvents events now = .ok (actions, g) → Stopped mi rt g := by
  have hevents : (f.startCall now).processEvents events =
      events.foldlM (processEventWithout mi) (f.startCall now) :=
    foldlM_congr (fun g e _ hg => (hg.event e).1) (fun g e _ g' hg => (hg.event e).2 g') h
  have hkeep : ∀ g, (f.startCall now).processEvents events = .ok g → Stopped mi rt g :=
    fun g hg => foldlM_keeps (fun g e _ g' hg => (hg.event e).2 g') h hg
  constructor
  · unfold triggerEvents triggerEventsWithout
    apply bind_same hevents
    intro g hg
    exact bind_same (hkeep g hg).delivery.1 fun _ _ => rfl
  · intro actions g hg
    obtain ⟨f1, h1, hd, _⟩ := triggerEvents_ok hg
    exact ((hkeep f1 h1).delivery).2 g hd

end Stopped

omit [RngCore R] [Time.Duration D] [Time.Instant T D] in
theorem Stopped.start {mi : Nat} {rt rt' : MachineRuntime T D} {f : Framework R T D}
    (hrt : f.runtime[mi]? = some rt) (hkept : kept rt = kept rt')
    (hend : rt'.currentState = stateEnd) (now : T) : Stopped mi rt' (f.startCall now) := by
  refine ⟨⟨rt, hrt, hkept⟩, hend, ?_⟩
  intro a ha
  simp [startCall, -List.map_const'] at ha

/-- A run goes as if the machine did not react: it stays as it is, and no action is for it. -/
theorem Stopped.run {mi : Nat} {rt rt0 : MachineRuntime T D} {f : Framework R T D}
    (hrt : f.runtime[mi]? = some rt) (hkept : kept rt = kept rt0)
    (hend : rt0.currentState = stateEnd) (calls : List (List TriggerEvent × T)) :
    f.run calls = f.runWithout mi calls ∧
      ∀ actions g, f.run calls = .ok (actions, g) →
        (∀ as ∈ actions, ∀ a ∈ as, a.machine ≠ mi) ∧
        ∃ rt', g.runtime[mi]? = some rt' ∧ kept rt' = kept rt0 := by
  induction calls generalizing f rt with
  | nil =>
    refine ⟨rfl, fun actions g hg => ?_⟩
    obtain ⟨rfl, rfl⟩ := Prod.mk.inj (Except.ok.inj hg)
    exact ⟨fun as has => absurd has List.not_mem_nil, rt, hrt, hkept⟩
  | cons c cs ih =>
    obtain ⟨hsame, hstopped⟩ := (Stopped.start hrt hkept hend c.2).call c.1
    constructor
    · apply bind_same hsame
      intro p hp
      obtain ⟨as, g⟩ := p
      obtain ⟨rt', hrt', hkept'⟩ := (hstopped as g hp).runtime
      exact bind_same (ih hrt' hkept').1 fun _ _ => rfl
    · intro actions g' hrun
      obtain ⟨p, hp, hrun⟩ := bind_ok.mp hrun
      obtain ⟨as, g⟩ := p
      obtain ⟨q, hq, hrun⟩ := bind_ok.mp hrun
      obtain ⟨rest, g''⟩ := q
      obtain ⟨rfl, rfl⟩ := Prod.mk.inj (Except.ok.inj hrun)
      have hg := hstopped as g hp
      obtain ⟨rt', hrt', hkept'⟩ := hg.runtime
      obtain ⟨hrest, hend'⟩ := (ih hrt' hkept').2 rest g'' hq
      refine ⟨?_, hend'⟩
      intro bs hbs
      rcases List.mem_cons.mp hbs with rfl | hbs
      · intro a ha hmachine
        exact hg.action a (hmachine ▸ returned_slot hp ha)
      · exact hrest bs hbs

/-- A machine that has stopped when a call starts never changes or acts again, whatever
follows, and the others go on as if it did not react at all. -/
theorem stateEnd_absorbing {f : Framework R T D} (hf : Reachable f) {mi : Nat}
    {rt : MachineRuntime T D} (hrt : f.runtime[mi]? = some rt)
    (hend : rt.currentState = stateEnd) (calls : List (List TriggerEvent × T)) :
    f.run calls = f.runWithout mi calls ∧
    (∀ (g : Framework R T D) (rt' : MachineRuntime T D) (event : Event),
      g.runtime[mi]? = some rt' → rt'.currentState = stateEnd →
      g.transition mi event = .ok (.unchanged, g.note (.performed mi event))) ∧
    ∃ actions f', f.run calls = .ok (actions, f') ∧
      (∀ as ∈ actions, ∀ a ∈ as, a.machine ≠ mi) ∧
      ∃ rt', f'.runtime[mi]? = some rt' ∧ rt'.currentState = stateEnd ∧
        rt'.stateLimit = rt.stateLimit ∧ rt'.counterA = rt.counterA ∧
        rt'.counterB = rt.counterB := by
  obtain ⟨hsame, hrest⟩ := Stopped.run hrt rfl hend calls
  obtain ⟨hwf, hsent⟩ := hf.wellFormed
  obtain ⟨actions, f', hrun⟩ := run_total hwf hsent calls
  obtain ⟨hactions, rt', hrt', hkept⟩ := hrest actions f' hrun
  simp only [kept, Prod.mk.injEq] at hkept
  obtain ⟨hstate, hlimit, hcounterA, hcounterB⟩ := hkept
  refine ⟨hsame, ?_, actions, f', hrun, hactions, rt', hrt', hstate.trans hend, hlimit, hcounterA,
    hcounterB⟩
  intro g rt1 event hrt1 hend1
  exact (Moves.ended hrt1 hend1).transition

/-- A machine that stops at the first event, and one that pads at every event. -/
def stopper : Machine := .free [State.new fun _ => certain stateEnd]

def chatter : Machine :=
  .free [{ State.new (fun _ => certain 0) with
    action := some (.sendPadding false false ⟨.uniform ⟨0⟩ ⟨0⟩, ⟨0⟩, ⟨0⟩⟩ none) }]

theorem stopper_absorbed : ∃ (f f' : Framework Unit Instant Duration)
    (actions : List (List (TriggerAction Duration))) (rt : MachineRuntime Instant Duration),
    Reachable f ∧ f.runtime[0]? = some rt ∧ rt.currentState = stateEnd ∧
    f.run [([.normalSent, .paddingSent 0], 1), ([.timerBegin 0], 2)] = .ok (actions, f') ∧
    f.runWithout 0 [([.normalSent, .paddingSent 0], 1), ([.timerBegin 0], 2)] =
      .ok (actions, f') ∧
    actions = [[.sendPadding 0 false false 1], []] := by
  have hrun : ((play [stopper, chatter] [([.normalRecv], 0)]).bind fun f =>
      (f.run [([.normalSent, .paddingSent 0], 1), ([.timerBegin 0], 2)]).toOption.bind fun r =>
        f.runtime[0]?.map fun rt => (rt.currentState, r.1)) =
      some (stateEnd, [[.sendPadding 0 false false 1], []]) := by decide +kernel
  simp only [Option.bind_eq_some_iff, Option.map_eq_some_iff, toOption_eq_some,
    Prod.mk.injEq] at hrun
  obtain ⟨f, hf, ⟨actions, f'⟩, hruns, rt, hrt, hend, hactions⟩ := hrun
  have hreach := play_reachable hf
  have hsame := (stateEnd_absorbing hreach hrt hend
    [([.normalSent, .paddingSent 0], 1), ([.timerBegin 0], 2)]).1
  exact ⟨f, f', actions, rt, hreach, hrt, hend, hruns, hsame ▸ hruns, hactions⟩

end Maybenot.Framework

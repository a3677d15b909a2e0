import Maybenot.Proofs.Turns

namespace Maybenot
open Lib

theorem at?_alike (xs : List α) (i : Nat) :
    Alike (fun x y => x = y ∧ x ∈ xs) (at? xs i) (at? xs i) := by
  unfold at?
  cases h : xs[i]? with
  | none => exact .failed _
  | some x => exact .returned ⟨rfl, List.mem_of_getElem? h⟩

namespace Framework

variable {R T T' D : Type} [RngCore R] [Time.Duration D] [Time.Instant T D] [Time.Instant T' D]

/-- A relation between frameworks with the same machines, and one between what they remember of a
machine, that hold on when both do the same: each field is a thing that a step does, or a question
whose answer it depends on. -/
structure Alongside (ms : List Machine) (S : Framework R T D → Framework R T' D → Prop)
    (P : MachineRuntime T D → MachineRuntime T' D → Prop) : Prop where
  machines : S f g → f.machines = ms ∧ g.machines = ms
  signal : S f g → f.signalPending = g.signalPending
  length : S f g → f.runtime.length = g.runtime.length
  runtimeAt mi : S f g → Alike P (at? f.runtime mi) (at? g.runtime mi)
  current : P rt rt' → rt.currentState = rt'.currentState
  limit : P rt rt' → rt.stateLimit = rt'.stateLimit
  move s : P rt rt' → P { rt with currentState := s } { rt' with currentState := s }
  relimit n : P rt rt' → P { rt with stateLimit := n } { rt' with stateLimit := n }
  note s : S f g → S (f.note s) (g.note s)
  draw (draw : R → R) : S f g → S { f with rng := draw f.rng } { g with rng := draw g.rng }
  sample event : S f g → m ∈ ms → st ∈ m.states →
    (st.sampleState event f.rng).1 = (st.sampleState event g.rng).1
  sampleLimit : S f g → m ∈ ms → st ∈ m.states → st.action = some action →
    (action.sampleLimit f.rng).1 = (action.sampleLimit g.rng).1
  ask mi : S f g → m ∈ ms → st ∈ m.states → st.action = some action →
    (triggerAction (D := D) mi action f.rng).1 = (triggerAction mi action g.rng).1
  setRuntime mi : S f g → P rt rt' → S (f.setRuntime mi rt) (g.setRuntime mi rt')
  setAction mi a : S f g → Alike S (f.setAction mi a) (g.setAction mi a)
  below : S f g → P rt rt' → m ∈ ms → f.belowActionLimits rt m = g.belowActionLimits rt' m
  count mi : S f g → P rt rt' → m ∈ ms → st ∈ m.states →
    (f.applyCounters mi rt st).1 = (g.applyCounters mi rt' st).1 ∧
      S (f.applyCounters mi rt st).2 (g.applyCounters mi rt' st).2
  /-- Only where something counts a step asks whether there is an action. -/
  actionAt mi : m ∈ ms → st ∈ m.states → st.counter ≠ (none, none) → S f g →
    Alike (fun a b => a.isNone = b.isNone) (at? f.actions mi) (at? g.actions mi)
  raise mi : m ∈ ms → st ∈ m.states → (st.sampleState event (r : R)).1 = some stateSignal → S f g →
    S { f with signalPending := raiseSignal f.signalPending mi }
      { g with signalPending := raiseSignal g.signalPending mi }
  take : S f g → S { f with signalPending := none } { g with signalPending := none }
  record e : S f g → S (f.recorded e) (g.recorded e)
  recordOwn e : S f g → P rt rt' → P (rt.recorded e f.blockedFor) (rt'.recorded e g.blockedFor)

namespace Alongside

variable {ms : List Machine} {S : Framework R T D → Framework R T' D → Prop}
  {P : MachineRuntime T D → MachineRuntime T' D → Prop} {f : Framework R T D}
  {g : Framework R T' D} (k : Alongside ms S P)
include k

theorem machineAt (h : S f g) (mi : Nat) :
    Alike (fun m m' => m = m' ∧ m ∈ ms) (at? f.machines mi) (at? g.machines mi) := by
  rw [(k.machines h).1, (k.machines h).2]
  exact at?_alike ms mi

theorem stateAt {rt : MachineRuntime T D} {rt' : MachineRuntime T' D} (h : P rt rt') (m : Machine) :
    Alike (fun st st' => st = st' ∧ st ∈ m.states) (m.stateAt rt.currentState)
      (m.stateAt rt'.currentState) := by
  rw [k.current h]
  exact at?_alike m.states _

theorem enterState (h : S f g) (mi : Nat) {rt : MachineRuntime T D} {rt' : MachineRuntime T' D}
    (hrt : P rt rt') (s : Nat) {m : Machine} (hm : m ∈ ms) {st : State} (hst : st ∈ m.states) :
    S (f.enterState mi rt s st) (g.enterState mi rt' s st) := by
  unfold Framework.enterState
  rw [k.current hrt]
  split
  · exact h
  · cases haction : st.action with
    | none => exact k.setRuntime mi h (k.relimit stateLimitMax (k.move s hrt))
    | some action =>
      dsimp only
      rw [k.sampleLimit h hm hst haction]
      exact k.setRuntime mi (k.draw (fun r => (action.sampleLimit r).2) h)
        (k.relimit _ (k.move s hrt))

theorem scheduleIf (h : S f g) (allowed : Bool) (mi s limit : Nat) :
    Alike S (f.scheduleIf allowed mi s limit) (g.scheduleIf allowed mi s limit) := by
  unfold Framework.scheduleIf
  split
  · have hnoted := k.note (.scheduled mi s limit) h
    unfold Framework.scheduleAction
    refine (k.machineAt hnoted mi).bind fun m m' hm => ?_
    obtain ⟨rfl, hm⟩ := hm
    refine (at?_alike m.states s).bind fun st st' hst => ?_
    obtain ⟨rfl, hst⟩ := hst
    cases haction : st.action with
    | none => exact k.setAction mi none hnoted
    | some action =>
      dsimp only
      rw [k.ask mi hnoted hm hst haction]
      exact k.setAction mi (some (triggerAction mi action _).1)
        (k.draw (fun r => (triggerAction (D := D) mi action r).2) hnoted)
  · exact .returned h

/-- The induction is on how often a counter may still be zeroed, as the two functions call each
other only for that. -/
theorem transition' (n : Nat) (h : S f g) (mi : Nat) :
    (2 * f.zeroBudget < n → Alike (fun r r' => r.1 = r'.1 ∧ S r.2 r'.2)
      (f.updateCounter mi) (g.updateCounter mi)) ∧
    (2 * f.zeroBudget + 1 < n → ∀ event, Alike (fun r r' => r.1 = r'.1 ∧ S r.2 r'.2)
      (f.transition mi event) (g.transition mi event)) := by
  induction n generalizing f g with
  | zero => exact ⟨fun h => absurd h (Nat.not_lt_zero _), fun h => absurd h (Nat.not_lt_zero _)⟩
  | succ n ih =>
    constructor
    · intro hn
      rw [Framework.updateCounter, Framework.updateCounter]
      refine (k.runtimeAt mi h).bind fun rt rt' hrt => ?_
      refine (k.machineAt h mi).bind fun m m' hm => ?_
      obtain ⟨rfl, hm⟩ := hm
      refine (k.stateAt hrt m).bind fun st st' hst => ?_
      obtain ⟨rfl, hst⟩ := hst
      obtain ⟨hanswer, hcounted⟩ := k.count mi h hrt hm hst
      by_cases hz : (f.applyCounters mi rt st).1 = true
      · have hless := zeroBudget_applyCounters hz
        have hcounts : st.counter ≠ (none, none) := by
          intro hnone
          rw [applyCounters_none hnone] at hz
          exact absurd hz (by simp)
        simp only [hz, ← hanswer, dite_true]
        refine ((ih hcounted).2 (by omega) _).bind fun r r' hr => ?_
        obtain ⟨hchange, hmoved⟩ := hr
        refine (k.actionAt mi hm hst hcounts hmoved).bind fun a a' ha => ?_
        rw [hchange, ha]
        exact .returned ⟨rfl, hmoved⟩
      · simp only [hz, ← hanswer]
        exact .returned ⟨rfl, hcounted⟩
    · intro hn event
      rw [Framework.transition, Framework.transition]
      have hnoted := k.note (.performed mi event) h
      refine (k.runtimeAt mi hnoted).bind fun rt rt' hrt => ?_
      rw [k.current hrt]
      split
      · exact .returned ⟨rfl, hnoted⟩
      refine (k.machineAt hnoted mi).bind fun m m' hm => ?_
      obtain ⟨rfl, hm⟩ := hm
      refine (at?_alike m.states rt'.currentState).bind fun st st' hst => ?_
      obtain ⟨rfl, hst⟩ := hst
      have hdrawn := k.draw (fun r => (st.sampleState event r).2) hnoted
      have hsame := k.sample event hnoted hm hst
      obtain ⟨⟨next, rng⟩, hsample⟩ :
          ∃ r, st.sampleState event (f.note (.performed mi event)).rng = r := ⟨_, rfl⟩
      obtain ⟨⟨next', rng'⟩, hsample'⟩ :
          ∃ r, st.sampleState event (g.note (.performed mi event)).rng = r := ⟨_, rfl⟩
      have hnext := congrArg Prod.fst hsample
      simp only [hsample, hsample'] at hdrawn hsame
      subst hsame
      rw [hsample, hsample']
      cases next with
      | none => exact .returned ⟨rfl, hdrawn⟩
      | some s =>
        have hsampled := k.note (.sampled mi s) hdrawn
        dsimp only
        split
        · exact .returned ⟨rfl, k.setRuntime mi hsampled (k.move stateEnd hrt)⟩
        split
        · rename_i hsignal
          exact .returned ⟨rfl, k.raise mi hm hst (hsignal ▸ hnext) hsampled⟩
        refine (at?_alike m.states s).bind fun next next' hsame => ?_
        obtain ⟨rfl, hmem⟩ := hsame
        have hentered := k.enterState hsampled mi hrt s hm hmem
        refine (k.runtimeAt mi hentered).bind fun entered entered' he => ?_
        rw [k.limit he]
        have harrived := k.note (.entered mi s entered'.stateLimit) hentered
        rw [k.below harrived he hm]
        refine (Alike.refl _).bind fun below below' hbelow => ?_
        subst hbelow
        have hbudget : 2 * zeroBudget (Framework.note (Framework.enterState
            (Framework.note { f.note (.performed mi event) with rng := rng } (.sampled mi s))
            mi rt s next) (.entered mi s entered'.stateLimit)) < n := by
          rw [zeroBudget_note, zeroBudget_enterState]
          exact Nat.lt_of_succ_lt_succ hn
        refine ((ih harrived).1 hbudget).bind fun r r' hr => ?_
        obtain ⟨⟨allow, changed⟩, f1⟩ := r
        obtain ⟨⟨allow', changed'⟩, g1⟩ := r'
        obtain ⟨hanswer, hcounted⟩ := hr
        obtain ⟨rfl, rfl⟩ := Prod.mk.inj hanswer
        refine (k.scheduleIf hcounted _ mi s _).bind fun f2 g2 h2 => ?_
        refine (k.runtimeAt mi h2).bind fun after after' hafter => ?_
        rw [k.current hafter]
        split
        · exact .returned ⟨rfl, h2⟩
        · exact .returned ⟨rfl, h2⟩

theorem transition (h : S f g) (mi : Nat) (event : Event) :
    Alike (fun r r' => r.1 = r'.1 ∧ S r.2 r'.2) (f.transition mi event) (g.transition mi event) :=
  (k.transition' _ h mi).2 (Nat.lt_succ_self _) event

theorem transitionOnly (h : S f g) (event : Event) (mi : Nat) :
    Alike S (f.transitionOnly event mi) (g.transitionOnly event mi) :=
  (k.transition h mi event).bind fun _ _ hr => .returned hr.2

theorem decrementLimit (h : S f g) (mi : Nat) :
    Alike S (f.decrementLimit mi) (g.decrementLimit mi) := by
  unfold Framework.decrementLimit
  refine (k.runtimeAt mi h).bind fun rt rt' hrt => ?_
  have hless := k.setRuntime mi h (k.relimit (rt'.stateLimit - 1) hrt)
  rw [k.limit hrt]
  refine (k.machineAt hless mi).bind fun m m' hm => ?_
  obtain ⟨rfl, _⟩ := hm
  dsimp only
  refine (k.stateAt hrt m).bind fun st st' hst => ?_
  obtain ⟨rfl, _⟩ := hst
  split
  · exact .returned hless
  split
  · refine (k.setAction mi none hless).bind fun f1 g1 h1 => ?_
    exact (k.transition h1 mi .limitReached).bind fun _ _ hr => .returned hr.2
  · exact .returned hless

theorem transitionLimited (h : S f g) (event : Event) (mi : Nat) :
    Alike S (f.transitionLimited event mi) (g.transitionLimited event mi) := by
  refine (k.transition h mi event).bind fun r r' hr => ?_
  obtain ⟨hc, h1⟩ := hr
  refine (k.runtimeAt mi h1).bind fun rt rt' hrt => ?_
  rw [hc, k.current hrt]
  split
  · exact k.decrementLimit h1 mi
  · exact .returned h1

theorem eachMachine {step : Framework R T D → Nat → Exec (Framework R T D)}
    {step' : Framework R T' D → Nat → Exec (Framework R T' D)}
    (hstep : ∀ f g mi, S f g → Alike S (step f mi) (step' g mi)) (h : S f g) :
    Alike S (f.eachMachine step) (g.eachMachine step') := by
  unfold Framework.eachMachine
  rw [k.length h]
  exact Alike.foldlM (fun mi _ f g => hstep f g mi) h

theorem processEvent (h : S f g) (e : TriggerEvent) :
    Alike S (f.processEvent e) (g.processEvent e) := by
  rw [processEvent_eq, processEvent_eq]
  refine k.eachMachine (fun f1 g1 mi h1 => ?_) (k.record e h)
  unfold turn
  split
  · refine (k.runtimeAt mi h1).bind fun rt rt' hrt => ?_
    have hset := k.setRuntime mi h1 (k.recordOwn e h hrt)
    split
    · exact k.transitionLimited hset e.event mi
    · exact k.transitionOnly hset e.event mi
  · exact .returned h1

theorem processEvents (h : S f g) (events : List TriggerEvent) :
    Alike S (f.processEvents events) (g.processEvents events) :=
  Alike.foldlM (fun e _ _ _ h => k.processEvent h e) h

theorem deliverSignal (h : S f g) : Alike S f.deliverSignal g.deliverSignal := by
  have hall (excluded : Option Nat) {f : Framework R T D} {g : Framework R T' D} (h : S f g) :
      Alike S (f.signalAll excluded) (g.signalAll excluded) := by
    refine k.eachMachine (fun f g mi h => ?_) h
    split
    · exact .returned h
    · exact k.transitionOnly h .signal mi
  unfold Framework.deliverSignal
  rw [k.signal h]
  split
  · exact .returned h
  · refine (hall _ (k.take h)).bind fun f1 g1 h1 => ?_
    rw [k.signal h1]
    split
    · dsimp only
      split
      · exact k.transitionOnly (k.take h1) .signal _
      · exact .returned (k.take h1)
    · exact .returned (k.take h1)

/-- What a call returns for two frameworks that ask for the same. -/
theorem call (hactions : ∀ f g, S f g → f.actions = g.actions) {now : T} {now' : T'}
    (h : S (f.startCall now) (g.startCall now')) (events : List TriggerEvent) :
    Alike (fun r r' => r.1 = r'.1 ∧ S r.2 r'.2) (f.triggerEvents events now)
      (g.triggerEvents events now') := by
  refine (k.processEvents h events).bind fun f1 g1 h1 => ?_
  refine (k.deliverSignal h1).bind fun f2 g2 h2 => ?_
  rw [hactions f2 g2 h2]
  exact .returned ⟨rfl, h2⟩

theorem run (hactions : ∀ f g, S f g → f.actions = g.actions)
    {session : List (List TriggerEvent × T × T')}
    (hstart : ∀ c ∈ session, ∀ f g, S f g → S (f.startCall c.2.1) (g.startCall c.2.2))
    (h : S f g) : Alike (fun r r' => r.1 = r'.1 ∧ S r.2 r'.2)
      (f.run (session.map fun c => (c.1, c.2.1))) (g.run (session.map fun c => (c.1, c.2.2))) := by
  induction session generalizing f g with
  | nil => exact .returned ⟨rfl, h⟩
  | cons c cs ih =>
    have hfirst := hstart c List.mem_cons_self f g h
    have hrest := fun c' hc' => hstart c' (List.mem_cons_of_mem c hc')
    refine (k.call hactions hfirst c.1).bind fun r r' hr => ?_
    obtain ⟨hreturned, hnext⟩ := hr
    refine (ih hrest hnext).bind fun s s' hs => ?_
    exact .returned ⟨congrArg₂ List.cons hreturned hs.1, hs.2⟩

end Alongside

end Framework

end Maybenot

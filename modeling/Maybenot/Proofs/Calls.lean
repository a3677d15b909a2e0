import Maybenot.Proofs.Turns

namespace Maybenot

/-- The machine an action is for. -/
def TriggerAction.machine : TriggerAction D → MachineId
  | .cancel machine _ => machine
  | .sendPadding _ _ _ machine => machine
  | .blockOutgoing _ _ _ _ machine => machine
  | .updateTimer _ _ machine => machine

namespace Framework
open Lib

variable {R T D : Type}

/-- The machines of a framework and the places for their runtimes and actions, which
no step changes. -/
def shape (f : Framework R T D) := (f.machines, f.runtime.length, f.actions.length)

theorem shape_eq {f f' : Framework R T D} (h : f'.shape = f.shape) :
    f'.machines = f.machines ∧ f'.runtime.length = f.runtime.length ∧
      f'.actions.length = f.actions.length := by
  simpa [shape] using h

theorem Apart.shape {mi : Nat} {f f' : Framework R T D} (h : Apart mi f f') :
    f'.shape = f.shape := by
  simp only [Framework.shape, h.machines, h.runtimeLength, h.actionsLength]

theorem foldlM_shape {step : Framework R T D → α → Exec (Framework R T D)}
    (hstep : ∀ f x f', step f x = .ok f' → f'.shape = f.shape) {xs : List α}
    {f f' : Framework R T D} (h : xs.foldlM step f = .ok f') : f'.shape = f.shape :=
  foldlM_keeps (P := fun g => g.shape = f.shape)
    (fun g x _ g' hg hx => (hstep g x g' hx).trans hg) rfl h

variable [RngCore R] [Time.Duration D] [Time.Instant T D]

omit [RngCore R] in
/-- What the framework's own accounting at an event leaves alone. -/
theorem recorded_apart {α : Type _} (view : Framework R T D → α)
    (h : ∀ (f : Framework R T D) normal padding duration started active,
      view { f with
        normalSentPackets := normal
        paddingSentPackets := padding
        blockingDuration := duration
        blockingStarted := started
        blockingActive := active } = view f)
    (f : Framework R T D) (e : TriggerEvent) : view (f.recorded e) = view f := by
  cases e with
  | normalSent | paddingSent _ => exact h f _ _ _ _ _
  | blockingBegin _ | blockingEnd =>
    simp only [recorded]
    split <;> exact h f _ _ _ _ _
  | _ => rfl

omit [RngCore R] in
theorem recorded_shape (f : Framework R T D) (e : TriggerEvent) :
    (f.recorded e).shape = f.shape :=
  recorded_apart Framework.shape (fun _ _ _ _ _ _ => rfl) f e

omit [RngCore R] in
theorem recorded_actions (f : Framework R T D) (e : TriggerEvent) :
    (f.recorded e).actions = f.actions :=
  recorded_apart Framework.actions (fun _ _ _ _ _ _ => rfl) f e

omit [RngCore R] in
theorem recorded_runtime (f : Framework R T D) (e : TriggerEvent) :
    (f.recorded e).runtime = f.runtime :=
  recorded_apart Framework.runtime (fun _ _ _ _ _ _ => rfl) f e

theorem processEvent_shape {f f' : Framework R T D} {e : TriggerEvent}
    (h : f.processEvent e = .ok f') : f'.shape = f.shape := by
  rw [processEvent_eq] at h
  exact (foldlM_shape (fun _ _ _ ht => (turn_ok ht).apart_of.shape) h).trans (recorded_shape f e)

/-- The rule for one machine at an event: what holds of it is kept until its turn and, as its
turn changed it, from then on. -/
theorem processEvent_own {P Q : Framework R T D → Prop} {f f' : Framework R T D}
    {e : TriggerEvent} {mi : Nat} (hmi : mi < f.runtime.length)
    (hbefore : ∀ i g g', mi ≠ i → P g → Turn e f.blockedFor g i g' → P g')
    (hown : ∀ g g', P g → Turn e f.blockedFor g mi g' → Q g')
    (hafter : ∀ i g g', mi ≠ i → Q g → Turn e f.blockedFor g i g' → Q g')
    (hstart : P (f.recorded e)) (h : f.processEvent e = .ok f') : Q f' := by
  rw [processEvent_eq] at h
  have hlen : mi < (f.recorded e).runtime.length := by
    rw [recorded_runtime]
    exact hmi
  refine foldlM_at hlen ?_ ?_ ?_ hstart h
  · exact fun i g g' hi hg ht => hbefore i g g' (Ne.symm hi) hg (turn_ok ht)
  · exact fun g g' hg ht => hown g g' hg (turn_ok ht)
  · exact fun i g g' hi hg ht => hafter i g g' (Ne.symm hi) hg (turn_ok ht)

theorem processEvent_fixed {f f' : Framework R T D} {e : TriggerEvent}
    (h : f.processEvent e = .ok f') : f'.fixed = (f.recorded e).fixed := by
  rw [processEvent_eq] at h
  refine foldlM_keeps (P := fun g => g.fixed = (f.recorded e).fixed) ?_ rfl h
  intro g mi _ g' hg hturn
  exact (turn_ok hturn).apart_of.fixed.trans hg

theorem processEvents_shape {f f' : Framework R T D} {events : List TriggerEvent}
    (h : f.processEvents events = .ok f') : f'.shape = f.shape :=
  foldlM_shape (fun _ _ _ => processEvent_shape) h

/-- The pending signal is taken. -/
def taken (f : Framework R T D) : Framework R T D := { f with signalPending := none }

theorem triggerEvents_ok {f f' : Framework R T D} {events : List TriggerEvent} {now : T}
    {actions : List (TriggerAction D)} (h : f.triggerEvents events now = .ok (actions, f')) :
    ∃ f1, (f.startCall now).processEvents events = .ok f1 ∧ f1.deliverSignal = .ok f' ∧
      actions = f'.actions.filterMap id := by
  simp only [triggerEvents, bind_ok] at h
  obtain ⟨f1, h1, f2, h2, h⟩ := h
  simp only [pure_ok, Prod.mk.injEq] at h
  obtain ⟨rfl, rfl⟩ := h
  exact ⟨f1, h1, h2, rfl⟩

/-- The delivery in its parts: nothing, a round of signals, or a round and one more signal for
the machine it left out. -/
theorem deliverSignal_parts {f f' : Framework R T D} (h : f.deliverSignal = .ok f') :
    f' = f ∨ (∃ excluded g, f.taken.signalAll excluded = .ok g ∧
      (f' = g.taken ∨ ∃ x c, excluded = some x ∧ Moves g.taken x .signal c f')) := by
  unfold deliverSignal at h
  split at h
  · exact .inl (pure_ok.mp h).symm
  simp only [bind_ok] at h
  obtain ⟨g, hg, h⟩ := h
  refine .inr ⟨_, g, hg, ?_⟩
  split at h
  · rename_i x hx
    split at h
    · obtain ⟨c, hm⟩ := transitionOnly_ok h
      exact .inr ⟨x, c, hx, hm⟩
    · exact .inl (pure_ok.mp h).symm
  · exact .inl (pure_ok.mp h).symm

/-- The rule for what the delivery of signals keeps. -/
theorem deliverSignal_keeps {P : Framework R T D → Prop}
    (htaken : ∀ g, P g → P g.taken)
    (hmove : ∀ g mi c g', P g → Moves g mi .signal c g' → P g') {f f' : Framework R T D}
    (hf : P f) (h : f.deliverSignal = .ok f') : P f' := by
  have hall (g g' : Framework R T D) (excluded : Option Nat) (hg : P g)
      (h : g.signalAll excluded = .ok g') : P g' := by
    refine foldlM_keeps (P := P) ?_ hg h
    intro g mi _ g' hg hstep
    split at hstep
    · exact pure_ok.mp hstep ▸ hg
    · obtain ⟨c, hm⟩ := transitionOnly_ok hstep
      exact hmove g mi c g' hg hm
  rcases deliverSignal_parts h with rfl | ⟨excluded, g, hg, hend⟩
  · exact hf
  · have hround : P g.taken := htaken g (hall f.taken g excluded (htaken f hf) hg)
    rcases hend with rfl | ⟨x, c, _, hm⟩
    · exact hround
    · exact hmove g.taken x c f' hround hm

/-- The rule for what a whole call keeps. -/
theorem triggerEvents_keeps {P : Framework R T D → Prop}
    (hrecorded : ∀ g e, P g → P (g.recorded e))
    (hturn : ∀ g e blocked mi g', P g → Turn e blocked g mi g' → P g')
    (htaken : ∀ g, P g → P g.taken)
    (hmove : ∀ g mi c g', P g → Moves g mi .signal c g' → P g') {f f' : Framework R T D}
    {events : List TriggerEvent} {now : T} {actions : List (TriggerAction D)}
    (hf : P (f.startCall now)) (h : f.triggerEvents events now = .ok (actions, f')) : P f' := by
  obtain ⟨f1, h1, hd, _⟩ := triggerEvents_ok h
  refine deliverSignal_keeps htaken hmove (foldlM_keeps (P := P) ?_ hf h1) hd
  intro g e _ g' hg he
  rw [processEvent_eq] at he
  exact foldlM_keeps (P := P) (fun g mi _ g' hg ht => hturn _ _ _ _ _ hg (turn_ok ht))
    (hrecorded _ _ hg) he

theorem triggerEvents_shape {f f' : Framework R T D} {events : List TriggerEvent} {now : T}
    {actions : List (TriggerAction D)} (h : f.triggerEvents events now = .ok (actions, f')) :
    f'.shape = f.shape :=
  triggerEvents_keeps (P := fun g => g.shape = f.shape)
    (fun g e hg => (recorded_shape g e).trans hg)
    (fun _ _ _ _ _ hg ht => ht.apart_of.shape.trans hg) (fun _ hg => hg)
    (fun _ _ _ _ hg hm => hm.frame.shape.trans hg) (by simp [startCall, shape]) h

omit [RngCore R] [Time.Duration D] [Time.Instant T D] in
/-- The action in a machine's place is for that machine. -/
def Labelled (f : Framework R T D) : Prop :=
  ∀ mi (a : TriggerAction D), f.actions[mi]? = some (some a) → a.machine = mi

omit [RngCore R] [Time.Duration D] [Time.Instant T D] in
/-- Every action has a property with the place that it is in. -/
def Holds (P : Nat → TriggerAction D → Prop) (f : Framework R T D) : Prop :=
  ∀ mi a, f.actions[mi]? = some (some a) → P mi a

omit [Time.Instant T D] in
theorem triggerAction_machine (mi : Nat) (action : Action) (rng : R) :
    (triggerAction (D := D) mi action rng).1.machine = mi := by
  cases action <;> rfl

section Holds

variable {P : Nat → TriggerAction D → Prop}

omit [RngCore R] [Time.Duration D] [Time.Instant T D] in
theorem Holds.set {f f' : Framework R T D} {mi : Nat} {a : Option (TriggerAction D)}
    (h : Holds P f) (ha : ∀ b, a = some b → P mi b)
    (hf : f'.actions = f.actions.set mi a) : Holds P f' := by
  intro j b hb
  rw [hf, List.getElem?_set] at hb
  split at hb
  · rename_i hj
    split at hb
    · exact hj ▸ ha b (Option.some.inj hb)
    · exact absurd hb (by simp)
  · exact h j b hb

variable (hP : ∀ mi action (rng : R), P mi (triggerAction mi action rng).1)
include hP

omit [Time.Instant T D] in
theorem Holds.schedule {f : Framework R T D} (h : Holds P f) (mi s limit : Nat) (st : State)
    (allowed : Bool) : Holds P (f.schedule mi s limit st allowed) := by
  unfold Framework.schedule
  split
  · unfold placeAction
    split
    · exact h.set (by simp) rfl
    · exact h.set (fun b hb => Option.some.inj hb ▸ hP mi _ _) rfl
  · exact h

theorem Moves.holds {f f' : Framework R T D} {mi : Nat} {event : Event} {c : StateChange}
    (h : Moves f mi event c f') (hf : Holds P f) : Holds P f' := by
  induction h with
  | ended _ _ => exact hf
  | idle _ _ _ _ => exact hf
  | stop _ _ _ _ => exact hf
  | signal _ _ _ _ => exact hf
  | enter hrt hne hcur hs hreal hst hin hrt' hm hbelow hz hlen =>
    apply Holds.schedule hP
    intro j b hb
    exact hf j b ((arrived_actions hin) ▸ hb)
  | chain hrt hne hcur hs hreal hst hin hrt' hm hbelow hz hnest ha hafter ih =>
    apply Holds.schedule hP
    apply ih
    intro j b hb
    exact hf j b ((arrived_actions hin) ▸ hb)

/-- What holds of every action as it is made holds of all that a call leaves in their places. -/
theorem call_holds {f f' : Framework R T D} {events : List TriggerEvent} {now : T}
    {actions : List (TriggerAction D)} (h : f.triggerEvents events now = .ok (actions, f')) :
    Holds P f' := by
  refine triggerEvents_keeps (P := Holds P) ?_ ?_ (fun _ hg => hg)
    (fun _ _ _ _ hg hm => hm.holds hP hg) ?_ h
  · intro g e hg
    unfold Holds
    rw [recorded_actions]
    exact hg
  · intro g e blocked mi g' hg ht
    cases ht with
    | apart hc => exact hg
    | moved hc hrt hm hrt' hkeep => exact hm.holds hP hg
    | used hc hrt hl hm hrt' hne hst hu => exact hm.holds hP hg
    | reached hc hrt hl hm hrt' hne hst hu hlen hm' =>
      exact hm'.holds hP ((hm.holds hP hg).set (by simp) rfl)
  · intro j b hb
    simp [startCall, -List.map_const'] at hb

end Holds

theorem call_labelled {f f' : Framework R T D} {events : List TriggerEvent} {now : T}
    {actions : List (TriggerAction D)} (h : f.triggerEvents events now = .ok (actions, f')) :
    Labelled f' :=
  call_holds triggerAction_machine h

/-- A returned action stands in the place of its machine. -/
theorem returned_slot {f f' : Framework R T D} {events : List TriggerEvent} {now : T}
    {actions : List (TriggerAction D)} {a : TriggerAction D}
    (h : f.triggerEvents events now = .ok (actions, f')) (ha : a ∈ actions) :
    f'.actions[a.machine]? = some (some a) := by
  obtain ⟨_, _, _, rfl⟩ := triggerEvents_ok h
  obtain ⟨b, hb, rfl⟩ : ∃ b, b ∈ f'.actions ∧ b = some a := by simpa using ha
  obtain ⟨j, hj⟩ := List.getElem?_of_mem hb
  rw [call_labelled h j a hj]
  exact hj

end Framework

end Maybenot

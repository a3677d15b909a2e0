import Maybenot.Proofs.Moves

namespace Maybenot
open Lib

/-- The event of the state machines a trigger event stands for. -/
def TriggerEvent.event : TriggerEvent → Event
  | .normalRecv => .normalRecv
  | .paddingRecv => .paddingRecv
  | .tunnelRecv => .tunnelRecv
  | .normalSent => .normalSent
  | .paddingSent _ => .paddingSent
  | .tunnelSent => .tunnelSent
  | .blockingBegin _ => .blockingBegin
  | .blockingEnd => .blockingEnd
  | .timerBegin _ => .timerBegin
  | .timerEnd _ => .timerEnd

/-- Whether a machine makes a transition on the event. -/
def TriggerEvent.concerns (mi : Nat) : TriggerEvent → Bool
  | .paddingSent machine | .timerBegin machine | .timerEnd machine => decide (machine = mi)
  | _ => true

/-- Whether the event uses up the limit of a machine that stays in its state. -/
def TriggerEvent.limits (mi : Nat) : TriggerEvent → Bool
  | .paddingSent machine | .timerBegin machine | .blockingBegin machine => decide (machine = mi)
  | _ => false

/-- The accounting a machine does for an event. -/
def MachineRuntime.recorded [Time.Duration D] (rt : MachineRuntime T D) (e : TriggerEvent)
    (blocked : D) : MachineRuntime T D :=
  match e with
  | .normalSent => { rt with normalSent := rt.normalSent + 1 }
  | .paddingSent _ => { rt with paddingSent := rt.paddingSent + 1 }
  | .blockingEnd =>
    if Time.Duration.isZero blocked then rt
    else { rt with blockingDuration := Time.Duration.add rt.blockingDuration blocked }
  | _ => rt

namespace Framework

variable {R T D : Type} [RngCore R] [Time.Duration D] [Time.Instant T D]

/-- How long the blocking that ends now has lasted. -/
def blockedFor (f : Framework R T D) : D :=
  if f.blockingActive then Time.Instant.saturatingDurationSince f.currentTime f.blockingStarted
  else Time.Duration.zero

/-- The accounting the framework itself does for an event. -/
def recorded (f : Framework R T D) (e : TriggerEvent) : Framework R T D :=
  match e with
  | .normalSent => { f with normalSentPackets := f.normalSentPackets + 1 }
  | .paddingSent _ => { f with paddingSentPackets := f.paddingSentPackets + 1 }
  | .blockingBegin _ =>
    if f.blockingActive then f
    else { f with blockingActive := true, blockingStarted := f.currentTime }
  | .blockingEnd =>
    if f.blockingActive then
      { f with
        blockingDuration := Time.Duration.add f.blockingDuration f.blockedFor
        blockingActive := false }
    else f
  | _ => f

/-- A machine's turn at an event. -/
def turn (e : TriggerEvent) (blocked : D) (f : Framework R T D) (mi : Nat) :
    Exec (Framework R T D) :=
  if e.concerns mi then do
    let rt ← at? f.runtime mi
    let f := f.setRuntime mi (rt.recorded e blocked)
    if e.limits mi then transitionLimited e.event f mi else transitionOnly e.event f mi
  else pure f

omit [RngCore R] [Time.Duration D] [Time.Instant T D] in
theorem setRuntime_self {f : Framework R T D} {mi : Nat} {rt : MachineRuntime T D}
    (h : f.runtime[mi]? = some rt) : f.setRuntime mi rt = f := by
  obtain ⟨hi, rfl⟩ := List.getElem?_eq_some_iff.mp h
  simp [setRuntime]

theorem transition_absent {f : Framework R T D} {mi : Nat} (h : f.runtime[mi]? = none)
    (event : Event) : f.transition mi event = .error .outOfBounds := by
  rw [transition]
  simp only [at?, note_runtime, h]
  rfl

/-- An event without accounting leaves its machine's turn the bare transition. -/
theorem turn_plain {e : TriggerEvent} {blocked : D} {f : Framework R T D} {mi : Nat}
    (hc : e.concerns mi = true) (hrec : ∀ rt : MachineRuntime T D, rt.recorded e blocked = rt) :
    turn e blocked f mi =
      if e.limits mi then transitionLimited e.event f mi else transitionOnly e.event f mi := by
  cases hrt : f.runtime[mi]? with
  | some rt => simp only [turn, hc, if_true, at?_ok.mpr hrt, ok_bind, hrec, setRuntime_self hrt]
  | none =>
    simp only [turn, hc, if_true, at?, hrt, transitionLimited, transitionOnly,
      transition_absent hrt]
    split <;> rfl

/-- A loop in which only one machine has anything to do. -/
theorem foldlM_only {step : σ → Nat → Except ε σ} {n : Nat}
    (h : ∀ s i, i ≠ m → step s i = pure s) (s : σ) :
    (List.range n).foldlM step s = if m < n then step s m else pure s := by
  induction n with
  | zero => rfl
  | succ n ih =>
    rw [List.range_succ, List.foldlM_append, ih]
    rcases Nat.lt_trichotomy m n with hlt | rfl | hgt
    · rw [if_pos hlt, if_pos (Nat.lt_succ_of_lt hlt)]
      cases hs : step s m with
      | error e => rfl
      | ok t => simp [h t n (by omega)]
    · simp
    · rw [if_neg (by omega), if_neg (by omega)]
      simp [h s n (by omega)]

/-- An event that all machines follow and none accounts for. -/
theorem turn_shared {e : TriggerEvent} (blocked : D) (hc : ∀ mi, e.concerns mi = true)
    (hrec : ∀ rt : MachineRuntime T D, rt.recorded e blocked = rt) :
    (turn e blocked : Framework R T D → Nat → Exec (Framework R T D)) = fun f mi =>
      if e.limits mi then transitionLimited e.event f mi else transitionOnly e.event f mi :=
  funext fun _ => funext fun mi => turn_plain (hc mi) hrec

/-- An event for one machine. -/
theorem turn_targeted {e : TriggerEvent} (machine : Nat) (f : Framework R T D) (blocked : D)
    (hc : ∀ mi, e.concerns mi = decide (machine = mi)) :
    f.eachMachine (turn e blocked) =
      if machine < f.runtime.length then turn e blocked f machine else pure f :=
  foldlM_only (m := machine) (fun s i hi => by simp [turn, hc, Ne.symm hi]) f

/-- Every event is processed as some accounting and then a turn of each machine. -/
theorem processEvent_eq (f : Framework R T D) (e : TriggerEvent) :
    f.processEvent e = (f.recorded e).eachMachine (turn e f.blockedFor) := by
  cases e with
  | normalRecv | paddingRecv | tunnelRecv | tunnelSent =>
    rw [turn_shared _ (fun _ => rfl) (fun _ => rfl)]
    rfl
  | normalSent => rfl
  | paddingSent machine =>
    rw [turn_targeted machine _ _ (fun _ => rfl)]
    by_cases h : machine < f.runtime.length
    · simp [processEvent, recorded, turn, TriggerEvent.concerns, TriggerEvent.limits, h,
        Nat.not_le.mpr h]
      rfl
    · simp [processEvent, recorded, h, Nat.not_lt.mp h]
  | blockingBegin machine =>
    rw [turn_shared _ (fun _ => rfl) (fun _ => rfl)]
    simp only [processEvent, recorded, TriggerEvent.limits, TriggerEvent.event,
      decide_eq_true_eq, eq_comm (a := machine)]
  | blockingEnd =>
    simp only [processEvent, recorded]
    congr 1
    funext g mi
    cases hrt : g.runtime[mi]? with
    | none => simp [turn, TriggerEvent.concerns, at?, hrt, bind, Except.bind]
    | some rt =>
      have hset (blocked : D) : (if Time.Duration.isZero blocked then g else
          g.setRuntime mi
            { rt with blockingDuration := Time.Duration.add rt.blockingDuration blocked }) =
          g.setRuntime mi (rt.recorded .blockingEnd blocked) := by
        unfold MachineRuntime.recorded
        cases Time.Duration.isZero blocked <;> simp [setRuntime_self hrt]
      simp only [turn, TriggerEvent.concerns, TriggerEvent.limits, TriggerEvent.event,
        at?_ok.mpr hrt, ok_bind, if_true, Bool.false_eq_true, if_false, hset]
      rfl
  | timerBegin machine | timerEnd machine =>
    rw [turn_targeted machine _ _ (fun _ => rfl),
      turn_plain (by simp [TriggerEvent.concerns]) (fun _ => rfl)]
    by_cases h : machine < f.runtime.length
    · simp [processEvent, recorded, TriggerEvent.limits, TriggerEvent.event, h, Nat.not_le.mpr h]
    · simp [processEvent, recorded, h, Nat.not_lt.mp h]

/-- Whether a state is left with its limit used up. -/
def usedUp (st : State) (limit : Nat) : Bool :=
  match st.action with
  | none => false
  | some a => decide (limit = 0) && a.hasLimit

/-- The machine after an event has used some of its limit. -/
def decremented (f : Framework R T D) (mi : Nat) (rt : MachineRuntime T D) : Framework R T D :=
  f.setRuntime mi { rt with stateLimit := rt.stateLimit - 1 }

/-- The machine with its limit used up and its action taken away. -/
def cleared (f : Framework R T D) (mi : Nat) (rt : MachineRuntime T D) : Framework R T D :=
  { f.decremented mi rt with actions := f.actions.set mi none }

/-- What a machine can do in its turn: nothing, a transition, or a transition that
uses some of the limit of its state and may reach it. -/
inductive Turn (e : TriggerEvent) (blocked : D) (f : Framework R T D) (mi : Nat) :
    Framework R T D → Prop
  | apart (hc : e.concerns mi = false) : Turn e blocked f mi f
  | moved (hc : e.concerns mi = true) (hrt : f.runtime[mi]? = some rt)
      (hm : Moves (f.setRuntime mi (rt.recorded e blocked)) mi e.event c g)
      (hrt' : g.runtime[mi]? = some rt')
      (hkeep : e.limits mi = true → ¬ (c = .unchanged ∧ rt'.currentState ≠ stateEnd)) :
      Turn e blocked f mi g
  | used (hc : e.concerns mi = true) (hrt : f.runtime[mi]? = some rt) (hl : e.limits mi = true)
      (hm : Moves (f.setRuntime mi (rt.recorded e blocked)) mi e.event .unchanged g)
      (hrt' : g.runtime[mi]? = some rt') (hne : rt'.currentState ≠ stateEnd)
      (hst : StateOf g mi rt'.currentState st) (hu : usedUp st (rt'.stateLimit - 1) = false) :
      Turn e blocked f mi (g.decremented mi rt')
  | reached (hc : e.concerns mi = true) (hrt : f.runtime[mi]? = some rt)
      (hl : e.limits mi = true)
      (hm : Moves (f.setRuntime mi (rt.recorded e blocked)) mi e.event .unchanged g)
      (hrt' : g.runtime[mi]? = some rt') (hne : rt'.currentState ≠ stateEnd)
      (hst : StateOf g mi rt'.currentState st) (hu : usedUp st (rt'.stateLimit - 1) = true)
      (hlen : mi < g.actions.length)
      (hm' : Moves (g.cleared mi rt') mi .limitReached c' f') : Turn e blocked f mi f'

theorem Turn.apart_of {e : TriggerEvent} {blocked : D} {f f' : Framework R T D} {mi : Nat}
    (h : Turn e blocked f mi f') : Apart mi f f' := by
  cases h with
  | apart hc => exact Apart.refl mi f
  | moved hc hrt hm hrt' hkeep => exact (Apart.setRuntime mi f _).trans hm.frame.toApart
  | used hc hrt hl hm hrt' hne hst hu =>
    exact ((Apart.setRuntime mi f _).trans hm.frame.toApart).trans (Apart.setRuntime mi _ _)
  | reached hc hrt hl hm hrt' hne hst hu hlen hm' =>
    exact ((((Apart.setRuntime mi f _).trans hm.frame.toApart).trans
      (Apart.setRuntime mi _ _)).trans (Apart.setActions mi _ none)).trans hm'.frame.toApart

theorem decrementLimit_ok {f f' : Framework R T D} {mi : Nat} {rt : MachineRuntime T D}
    (hrt : f.runtime[mi]? = some rt) (h : f.decrementLimit mi = .ok f') :
    ∃ st, StateOf f mi rt.currentState st ∧
      ((usedUp st (rt.stateLimit - 1) = false ∧ f' = f.decremented mi rt) ∨
        (usedUp st (rt.stateLimit - 1) = true ∧ mi < f.actions.length ∧
          ∃ c, Moves (f.cleared mi rt) mi .limitReached c f')) := by
  simp only [decrementLimit, bind_ok, at?_ok, Machine.stateAt] at h
  obtain ⟨rt', hrt', m, hm, st, hst, h⟩ := h
  obtain rfl := Option.some.inj (hrt.symm.trans hrt')
  refine ⟨st, ⟨m, hm, hst⟩, ?_⟩
  cases ha : st.action with
  | none =>
    rw [ha] at h
    exact .inl ⟨by simp only [usedUp, ha], (pure_ok.mp h).symm⟩
  | some a =>
    simp only [ha] at h
    split at h
    · rename_i hu
      simp only [bind_ok, setAction_ok] at h
      obtain ⟨g, ⟨hlen, rfl⟩, ⟨c, g'⟩, hm, h⟩ := h
      obtain rfl := pure_ok.mp h
      exact .inr ⟨by simp [usedUp, ha, hu], hlen, c, transition_ok.mp hm⟩
    · rename_i hu
      exact .inl ⟨by simpa [usedUp, ha] using hu, (pure_ok.mp h).symm⟩

theorem decrementLimit_free {f : Framework R T D} {mi : Nat} {rt : MachineRuntime T D}
    {st : State} (hrt : f.runtime[mi]? = some rt) (hst : StateOf f mi rt.currentState st)
    (hu : usedUp st (rt.stateLimit - 1) = false) :
    f.decrementLimit mi = .ok (f.decremented mi rt) := by
  obtain ⟨m, hm, hst⟩ := hst
  refine (bind_eq (at?_ok.mpr hrt)).trans ((bind_eq (at?_ok.mpr hm)).trans
    ((bind_eq (at?_ok.mpr hst)).trans ?_))
  cases ha : st.action with
  | none => rfl
  | some a =>
    have hu' : ¬ (rt.stateLimit - 1 = 0 ∧ a.hasLimit = true) := by simpa [usedUp, ha] using hu
    simp only [if_neg hu']
    rfl

theorem decrementLimit_reached {f f' : Framework R T D} {mi : Nat} {rt : MachineRuntime T D}
    {st : State} {c : StateChange} (hrt : f.runtime[mi]? = some rt)
    (hst : StateOf f mi rt.currentState st) (hu : usedUp st (rt.stateLimit - 1) = true)
    (hlen : mi < f.actions.length)
    (hm' : Moves (f.cleared mi rt) mi .limitReached c f') : f.decrementLimit mi = .ok f' := by
  obtain ⟨m, hm, hst⟩ := hst
  refine (bind_eq (at?_ok.mpr hrt)).trans ((bind_eq (at?_ok.mpr hm)).trans
    ((bind_eq (at?_ok.mpr hst)).trans ?_))
  cases ha : st.action with
  | none => simp [usedUp, ha] at hu
  | some a =>
    have hu' : rt.stateLimit - 1 = 0 ∧ a.hasLimit = true := by simpa [usedUp, ha] using hu
    simp only [if_pos hu']
    have hclear : (f.decremented mi rt).setAction mi none = .ok _ := setAction_ok.mpr ⟨hlen, rfl⟩
    exact (bind_eq hclear).trans (bind_eq hm'.transition)

theorem transitionOnly_ok {event : Event} {f f' : Framework R T D} {mi : Nat}
    (h : transitionOnly event f mi = .ok f') : ∃ c, Moves f mi event c f' := by
  simp only [transitionOnly, bind_ok] at h
  obtain ⟨⟨c, g⟩, hm, h⟩ := h
  obtain rfl := pure_ok.mp h
  exact ⟨c, transition_ok.mp hm⟩

theorem turn_ok {e : TriggerEvent} {blocked : D} {f f' : Framework R T D} {mi : Nat}
    (h : turn e blocked f mi = .ok f') : Turn e blocked f mi f' := by
  unfold turn at h
  cases hc : e.concerns mi with
  | false =>
    rw [hc] at h
    exact pure_ok.mp h ▸ .apart hc
  | true =>
    simp only [hc, if_true, bind_ok, at?_ok] at h
    obtain ⟨rt, hrt, h⟩ := h
    cases hl : e.limits mi with
    | false =>
      simp only [hl, Bool.false_eq_true, if_false] at h
      obtain ⟨c, hm⟩ := transitionOnly_ok h
      obtain ⟨rt', hrt'⟩ := hm.present (set_getElem? hrt)
      exact .moved hc hrt hm hrt' (by simp [hl])
    | true =>
      simp only [hl, if_true, transitionLimited, bind_ok, at?_ok] at h
      obtain ⟨⟨c, g⟩, hm, rt', hrt', h⟩ := h
      replace hm := transition_ok.mp hm
      split at h
      · rename_i hkeep
        obtain ⟨rfl, hne⟩ := hkeep
        obtain ⟨st, hst, ⟨hu, rfl⟩ | ⟨hu, hlen, c', hm'⟩⟩ := decrementLimit_ok hrt' h
        · exact .used hc hrt hl hm hrt' hne hst hu
        · exact .reached hc hrt hl hm hrt' hne hst hu hlen hm'
      · rename_i hkeep
        obtain rfl := pure_ok.mp h
        exact .moved hc hrt hm hrt' (fun _ => hkeep)

theorem Turn.turn {e : TriggerEvent} {blocked : D} {f f' : Framework R T D} {mi : Nat}
    (h : Turn e blocked f mi f') : turn e blocked f mi = .ok f' := by
  cases h with
  | apart hc => simp [Framework.turn, hc, pure, Except.pure]
  | moved hc hrt hm hrt' hkeep =>
    simp only [Framework.turn, hc, if_true, at?_ok.mpr hrt, ok_bind]
    cases hl : e.limits mi with
    | false => exact bind_eq hm.transition
    | true =>
      refine (bind_eq hm.transition).trans ((bind_eq (at?_ok.mpr hrt')).trans ?_)
      rw [if_neg (hkeep hl)]
      rfl
  | used hc hrt hl hm hrt' hne hst hu =>
    simp only [Framework.turn, hc, hl, if_true, at?_ok.mpr hrt, ok_bind]
    refine (bind_eq hm.transition).trans ((bind_eq (at?_ok.mpr hrt')).trans ?_)
    rw [if_pos ⟨rfl, hne⟩]
    exact decrementLimit_free hrt' hst hu
  | reached hc hrt hl hm hrt' hne hst hu hlen hm' =>
    simp only [Framework.turn, hc, hl, if_true, at?_ok.mpr hrt, ok_bind]
    refine (bind_eq hm.transition).trans ((bind_eq (at?_ok.mpr hrt')).trans ?_)
    rw [if_pos ⟨rfl, hne⟩]
    exact decrementLimit_reached hrt' hst hu hlen hm'

end Framework

end Maybenot

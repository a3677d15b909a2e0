import Maybenot.Proofs.Log

namespace Maybenot.Framework
open Lib

variable {R T D : Type} [RngCore R] [Time.Duration D] [Time.Instant T D]

/-- How the signals that the machines of `v` sent are delivered: to nobody, to all, to
all but the sender, or then to the sender as well because another machine answered. -/
inductive Delivery (f : Framework R T D) (v : List Nat) (f' : Framework R T D) : Prop
  | none (hv : v = []) (hf : f' = f)
  | all (hv : 2 ≤ v.length) (hg : f.taken.signalAll none = .ok g) (hf : f' = g.taken)
  | except (hv : v = [x]) (hg : f.taken.signalAll (some x) = .ok g) (hp : g.signalPending = none)
      (hf : f' = g.taken)
  | answered (hv : v = [x]) (hg : f.taken.signalAll (some x) = .ok g) (hp : g.signalPending ≠ none)
      (hm : Moves g.taken x .signal c f')

theorem deliverSignal_ok {f f' : Framework R T D} {v : List Nat}
    (hv : f.signalPending = raiseAll none v) (h : f.deliverSignal = .ok f') : Delivery f v f' := by
  rw [raiseAll_none] at hv
  unfold deliverSignal at h
  match v with
  | [] =>
    rw [hv] at h
    exact .none rfl (pure_ok.mp h).symm
  | [x] =>
    simp only [hv, bind_ok] at h
    obtain ⟨g, hg, h⟩ := h
    cases hp : g.signalPending with
    | none =>
      rw [hp] at h
      exact .except rfl hg hp (pure_ok.mp h).symm
    | some s =>
      simp only [hp, Option.isSome_some, if_true] at h
      obtain ⟨c, hm⟩ := transitionOnly_ok h
      exact .answered rfl hg (by simp [hp]) hm
  | x :: y :: ys =>
    simp only [hv, bind_ok] at h
    obtain ⟨g, hg, h⟩ := h
    exact .all (by simp) hg (pure_ok.mp h).symm

/-- What is known once the events of a call that starts without a pending signal are
processed: nobody has heard a signal, and those raised are pending. -/
theorem processed_signals {f f1 : Framework R T D} {events : List TriggerEvent} {now : T}
    (hp : f.signalPending = none) (h1 : (f.startCall now).processEvents events = .ok f1) :
    (∀ x ∈ senders f1.log, x < f.runtime.length) ∧ (∀ j, heard j f1.log = 0) ∧
      f1.taken.runtime.length = f.runtime.length ∧
      f1.signalPending = raiseAll none (senders f1.log) := by
  obtain ⟨w, hw⟩ := processEvents_emits h1
  have hlog : f1.log = w := hw.log
  refine ⟨hlog ▸ hw.senders_who, hlog ▸ hw.times, congrArg (·.2.1) (processEvents_shape h1), ?_⟩
  rw [hlog, hw.pending]
  exact congrArg (raiseAll · _) hp

/-- A call delivers what its events raised. -/
theorem call_delivers {f f1 f' : Framework R T D} {events : List TriggerEvent} {now : T}
    {actions : List (TriggerAction D)} (hp : f.signalPending = none)
    (h1 : (f.startCall now).processEvents events = .ok f1)
    (h : f.triggerEvents events now = .ok (actions, f')) : Delivery f1 (senders f1.log) f' := by
  obtain ⟨f2, h2, hd, _⟩ := triggerEvents_ok h
  obtain rfl := Except.ok.inj (h1.symm.trans h2)
  exact deliverSignal_ok (processed_signals hp h1).2.2.2 hd

/-- Whether every one of `n` machines heard exactly one signal if another machine sent
one and none otherwise. -/
def HeardRight (n : Nat) (log : List Step) : Prop :=
  ∀ mi < n, heard mi log = if (senders log).any (· ≠ mi) then 1 else 0

/-- One machine sent several signals in the first part of a log and no other machine
sent any in the whole. -/
def LoneSender (first log : List Step) : Prop :=
  2 ≤ (senders first).length ∧ ∃ x, ∀ y ∈ senders log, y = x

/-- After a single signal only its sender may hear nothing, when no other machine sends
one later. -/
theorem heardRight_single {n x : Nat} {v w : List Step} (hx : senders v = [x])
    (hheard : ∀ mi < n,
      heard mi (v ++ w) = if mi = x ∧ (senders w).any (· ≠ x) = false then 0 else 1) :
    HeardRight n (v ++ w) := by
  intro mi hmi
  rw [hheard mi hmi, senders_append, hx, List.singleton_append, List.any_cons]
  by_cases hm : mi = x
  · subst hm
    cases (senders w).any (· ≠ mi) <;> simp
  · simp [hm, Ne.symm hm]

theorem signals_heard_right_iff {f f1 f' : Framework R T D} {events : List TriggerEvent} {now : T}
    {actions : List (TriggerAction D)} (hp : f.signalPending = none)
    (h1 : (f.startCall now).processEvents events = .ok f1)
    (h : f.triggerEvents events now = .ok (actions, f')) :
    HeardRight f.runtime.length f'.log ↔ ¬ LoneSender f1.log f'.log := by
  obtain ⟨hwho, hzero, hlen, _⟩ := processed_signals hp h1
  cases call_delivers hp h1 h with
  | none hv hf =>
    subst hf
    simp [HeardRight, LoneSender, hv, hzero]
  | all hv hg hf =>
    obtain ⟨hshape, w, hw⟩ := signalAll_emits hg
    have hlog : f'.log = f1.log ++ w := by rw [hf]; exact hw.log
    have hheard (mi : Nat) (hmi : mi < f.runtime.length) : heard mi f'.log = 1 := by
      rw [hlog, heard_append, hzero, hw.times, if_pos ⟨hlen ▸ hmi, by simp⟩]
    constructor
    · rintro hright ⟨_, x, hx⟩
      have hxn : x < f.runtime.length := by
        obtain ⟨y, hy⟩ := List.exists_mem_of_length_pos (Nat.lt_of_lt_of_le Nat.zero_lt_two hv)
        exact hx y (by rw [hlog]; simp [hy]) ▸ hwho y hy
      have hr := hright x hxn
      rw [hheard x hxn] at hr
      obtain ⟨y, hy, hne⟩ : ∃ y ∈ senders f'.log, ¬ y = x := by simpa using hr
      exact hne (hx y hy)
    · intro hlone mi hmi
      have hother : ∃ y ∈ senders f'.log, y ≠ mi := by
        by_contra hc
        push Not at hc
        exact hlone ⟨hv, mi, hc⟩
      rw [hheard mi hmi, if_pos (by simpa using hother)]
  | @except x g hv hg hnone hf =>
    obtain ⟨hshape, w, hw⟩ := signalAll_emits hg
    have hlog : f'.log = f1.log ++ w := by rw [hf]; exact hw.log
    have hs : senders w = [] := raiseAll_eq_none.mp (hw.pending.symm.trans hnone)
    have hlone : ¬ LoneSender f1.log f'.log := by simp [LoneSender, hv]
    refine iff_of_true (hlog ▸ heardRight_single hv ?_) hlone
    intro mi hmi
    rw [heard_append, hzero, hw.times, hlen, hs]
    by_cases hm : mi = x <;> simp [hm, hmi, eq_comm (a := x)]
  | @answered x g c hv hg hsome hm =>
    obtain ⟨hshape, w, hw⟩ := signalAll_emits hg
    obtain ⟨u, hu⟩ := hm.emits
    have hlog : f'.log = f1.log ++ (w ++ u) := by
      rw [hu.log, ← List.append_assoc]
      exact congrArg (· ++ u) hw.log
    have hlone : ¬ LoneSender f1.log f'.log := by simp [LoneSender, hv]
    -- the answer came from a machine that heard the first signal, so not from `x`
    have hother : (senders (w ++ u)).any (· ≠ x) = true := by
      cases hs : senders w with
      | nil => exact absurd (by rw [hw.pending, hs]; rfl) hsome
      | cons y ys =>
        have hy : x ≠ y := by simpa using (hw.senders_who y (by simp [hs])).2
        simp [hs, Ne.symm hy]
    refine iff_of_true (hlog ▸ heardRight_single hv ?_) hlone
    intro mi hmi
    rw [heard_append, heard_append, hzero, hw.times, hu.times, hlen, hother]
    by_cases hm : mi = x <;> simp [hm, hmi, eq_comm (a := x)]

instance (n : Nat) (log : List Step) : Decidable (HeardRight n log) :=
  inferInstanceAs (Decidable (∀ mi < n, _))

/-- A machine that signals on every normal packet. -/
def caller : Machine :=
  .free [.new fun
    | .normalSent => certain stateSignal
    | _ => []]

/-- Two packets in one batch make the only machine hear its own signal. -/
theorem own_signal_heard :
    ∃ f f' : Framework Unit Instant Duration, play [caller] [] = some f ∧ Reachable f ∧
      f.signalPending = none ∧ f.triggerEvents [.normalSent, .normalSent] 0 = .ok ([], f') ∧
      ¬ HeardRight f.runtime.length f'.log := by
  have hrun : ((play [caller] []).bind fun f =>
      (f.triggerEvents [.normalSent, .normalSent] 0).toOption.map fun r =>
        (f.signalPending, r.1, decide (HeardRight f.runtime.length r.2.log))) =
      some (none, [], false) := by decide +kernel
  simp only [Option.bind_eq_some_iff, Option.map_eq_some_iff, toOption_eq_some, Prod.mk.injEq,
    decide_eq_false_iff_not] at hrun
  obtain ⟨f, hf, ⟨actions, f'⟩, ht, hp, rfl, hright⟩ := hrun
  exact ⟨f, f', hf, play_reachable hf, hp, ht, hright⟩

/-- A machine that answers every signal. -/
def echo : Machine :=
  .free [.new fun
    | .signal => certain stateSignal
    | _ => []]

/-- A machine that does nothing. -/
def listener : Machine := .free [.new fun _ => []]

/-- One machine signals on a packet and one answers that: all three hear one signal. -/
theorem answered_signal_heard_right :
    ∃ f f' : Framework Unit Instant Duration, play [caller, echo, listener] [] = some f ∧
      f.triggerEvents [.normalSent] 0 = .ok ([], f') ∧ senders f'.log = [0, 1] ∧
      (List.range 3).map (heard · f'.log) = [1, 1, 1] ∧
      HeardRight f.runtime.length f'.log := by
  have hrun : ((play [caller, echo, listener] []).bind fun f =>
      ((f.startCall 0).processEvents [.normalSent]).toOption.bind fun f1 =>
        (f.triggerEvents [.normalSent] 0).toOption.map fun r =>
          (f.signalPending, r.1, senders f1.log, senders r.2.log,
            (List.range 3).map (heard · r.2.log))) =
      some (none, [], [0], [0, 1], [1, 1, 1]) := by decide +kernel
  simp only [Option.bind_eq_some_iff, Option.map_eq_some_iff, toOption_eq_some] at hrun
  obtain ⟨f, hf, f1, h1, ⟨actions, f'⟩, ht, hsome⟩ := hrun
  obtain ⟨hp, hsome⟩ := Prod.mk.inj hsome
  obtain ⟨rfl, hsome⟩ := Prod.mk.inj hsome
  obtain ⟨hfirst, hsome⟩ := Prod.mk.inj hsome
  obtain ⟨hall, hheard⟩ := Prod.mk.inj hsome
  refine ⟨f, f', hf, ht, hall, hheard, (signals_heard_right_iff hp h1 ht).mpr ?_⟩
  rintro ⟨hlen, _⟩
  rw [hfirst] at hlen
  exact absurd hlen (by decide)

/-- The call comes to signal the machine it has left out so far, in state `g`. -/
def Redelivers (f : Framework R T D) (events : List TriggerEvent) (now : T)
    (g : Framework R T D) (x : Nat) : Prop :=
  ∃ f1 f2, (f.startCall now).processEvents events = .ok f1 ∧
    f1.signalPending = some (.allExcept x) ∧ f1.taken.signalAll (some x) = .ok f2 ∧
    f2.signalPending ≠ none ∧ g = f2.taken

/-- Machine `x` samples `STATE_SIGNAL` in the transition it makes. -/
def SignalsOn (g : Framework R T D) (x : Nat) (event : Event) : Prop :=
  ∃ c g', g.transition x event = .ok (c, g') ∧ x ∈ senders (g'.log.drop g.log.length)

/-- A machine that is signalled late, as the one that had been left out, does not
signal again. -/
def Settles (f : Framework R T D) (events : List TriggerEvent) (now : T) : Prop :=
  ∀ g x, Redelivers f events now g x → ¬ SignalsOn g x .signal

omit [Time.Instant T D] in
theorem new_signalPending {f : Framework R T D} (h : Initial f) : f.signalPending = none := by
  obtain ⟨machines, padding, blocking, now, rng, h⟩ := h
  unfold Framework.new at h
  split at h
  · simp at h
  split at h
  · simp at h
  split at h
  · simp at h
  · simp only [bind_ok, pure_ok, Except.ok.injEq] at h
    obtain ⟨⟨runtime, rng⟩, _, rfl⟩ := h
    rfl

/-- A call without events does nothing when no signal is pending. -/
theorem empty_call {f : Framework R T D} (hp : f.signalPending = none) (now : T) :
    f.triggerEvents [] now = .ok ([], f.startCall now) := by
  have hdeliver : (f.startCall now).deliverSignal = .ok (f.startCall now) := by
    rw [deliverSignal, show (f.startCall now).signalPending = none from hp]
    rfl
  have hactions : (f.startCall now).actions.filterMap id = [] := by
    simp [startCall]
  refine (bind_eq (rfl : (f.startCall now).processEvents [] = .ok _)).trans
    ((bind_eq hdeliver).trans ?_)
  rw [hactions]
  rfl

/-- A call leaves a signal behind exactly if it does not settle. -/
theorem pending_none_iff {f f' : Framework R T D} {events : List TriggerEvent} {now : T}
    {actions : List (TriggerAction D)} (hp : f.signalPending = none)
    (h : f.triggerEvents events now = .ok (actions, f')) :
    f'.signalPending = none ↔ Settles f events now := by
  obtain ⟨f1, h1, _, _⟩ := triggerEvents_ok h
  have hraised := (processed_signals hp h1).2.2.2
  have hcall := call_delivers hp h1 h
  generalize senders f1.log = v at hraised hcall
  rw [raiseAll_none] at hraised
  -- the late signal of `Redelivers` is that of this call
  have hsame {g x} (hr : Redelivers f events now g x) : f1.signalPending = some (.allExcept x) ∧
      ∃ f2, f1.taken.signalAll (some x) = .ok f2 ∧ f2.signalPending ≠ none ∧ g = f2.taken := by
    obtain ⟨f1', f2, h1', hr⟩ := hr
    obtain rfl := Except.ok.inj (h1.symm.trans h1')
    exact ⟨hr.1, f2, hr.2⟩
  cases hcall with
  | none hv hf =>
    subst hv hf
    exact iff_of_true hraised fun g x hr => absurd (hraised.symm.trans (hsame hr).1) (by simp)
  | all hv hg hf =>
    match v, hv with
    | _ :: _ :: _, _ =>
      refine iff_of_true (by rw [hf]; rfl) fun g x hr => ?_
      exact absurd (hraised.symm.trans (hsame hr).1) (by simp)
  | except hv hg hnone hf =>
    subst hv
    refine iff_of_true (by rw [hf]; rfl) fun g' x' hr => ?_
    obtain ⟨hx, f2, hf2, hsome, _⟩ := hsame hr
    obtain ⟨rfl⟩ : _ = x' := by simpa using hraised.symm.trans hx
    exact absurd (Except.ok.inj (hf2.symm.trans hg) ▸ hnone) hsome
  | @answered x g c hv hg hsome hm =>
    subst hv
    obtain ⟨u, hu⟩ := hm.emits
    have hdrop : f'.log.drop g.taken.log.length = u := by rw [hu.log]; simp
    have hnone : f'.signalPending = none ↔ senders u = [] := by
      rw [hu.pending]
      exact raiseAll_eq_none
    rw [hnone]
    constructor
    · rintro hnil g' x' hr ⟨c', f'', ht, hx'⟩
      obtain ⟨hx, f2, hf2, _, rfl⟩ := hsame hr
      obtain rfl : x = x' := by simpa using hraised.symm.trans hx
      obtain rfl := Except.ok.inj (hf2.symm.trans hg)
      obtain ⟨_, rfl⟩ : _ ∧ f' = f'' := by simpa using hm.transition.symm.trans ht
      simp [hdrop, hnil] at hx'
    · intro hset
      by_contra hne
      obtain ⟨y, hy⟩ := List.exists_mem_of_ne_nil _ hne
      obtain rfl := hu.senders_who y hy
      exact hset g.taken y ⟨f1, g, h1, hraised, hg, hsome, rfl⟩ ⟨c, f', hm.transition, hdrop ▸ hy⟩

/-- In runs of calls that settle no signal is ever left behind, and then a call without
events makes no transition. A call that does not settle does leave one. -/
theorem no_signal_survives {f : Framework R T D} (hf : ReachableBy Settles f) :
    f.signalPending = none ∧
    (∀ now, ∃ f', f.triggerEvents [] now = .ok ([], f') ∧ f'.runtime = f.runtime ∧
      f'.log = []) ∧
    ∀ events now actions f', f.triggerEvents events now = .ok (actions, f') →
      (f'.signalPending = none ↔ Settles f events now) := by
  have hp : f.signalPending = none := by
    refine hf.invariant (fun f => new_signalPending) ?_
    rintro f f' hp ⟨events, now, actions, hset, ht⟩
    exact (pending_none_iff hp ht).mpr hset
  exact ⟨hp, fun now => ⟨_, empty_call hp now, rfl, rfl⟩,
    fun events now actions f' ht => pending_none_iff hp ht⟩

/-- A machine that signals on every normal packet and answers every signal. -/
def echoingCaller : Machine :=
  .free [.new fun
    | .normalSent | .signal => certain stateSignal
    | _ => []]

/-- The caller answers the answer to its signal, and that is left behind. -/
theorem answer_survives :
    ∃ f f' : Framework Unit Instant Duration, play [echoingCaller, echo] [] = some f ∧
      f.triggerEvents [.normalSent] 0 = .ok ([], f') ∧ Reachable f' ∧
      f'.signalPending = some (.allExcept 0) := by
  have hrun : ((play [echoingCaller, echo] []).bind fun f =>
      (f.triggerEvents [.normalSent] 0).toOption.map fun r => (r.1, r.2.signalPending)) =
      some ([], some (.allExcept 0)) := by decide +kernel
  simp only [Option.bind_eq_some_iff, Option.map_eq_some_iff, toOption_eq_some,
    Prod.mk.injEq] at hrun
  obtain ⟨f, hf, ⟨actions, f'⟩, ht, rfl, hp⟩ := hrun
  exact ⟨f, f', hf, ht, .next (play_reachable hf) ⟨_, _, _, trivial, ht⟩, hp⟩

/-- A run of one call whose only signal nobody answers. -/
theorem unanswered_signal_survives_not :
    ∃ f : Framework Unit Instant Duration, play [caller] [([.normalSent], 0)] = some f ∧
      f.signalPending = none ∧
      (∀ now, ∃ f', f.triggerEvents [] now = .ok ([], f') ∧ f'.runtime = f.runtime ∧
        f'.log = []) ∧
      ∀ events now actions f', f.triggerEvents events now = .ok (actions, f') →
        (f'.signalPending = none ↔ Settles f events now) := by
  have hrun : ((play [caller] []).bind fun f =>
      (f.triggerEvents [.normalSent] 0).toOption.map fun r =>
        (f.signalPending, r.2.signalPending,
          decide (play [caller] [([.normalSent], 0)] = some r.2))) =
      some (none, none, true) := by decide +kernel
  simp only [Option.bind_eq_some_iff, Option.map_eq_some_iff, toOption_eq_some,
    Prod.mk.injEq, decide_eq_true_eq] at hrun
  obtain ⟨f, hf, ⟨actions, f'⟩, ht, hp, hp', hplay⟩ := hrun
  have hreach : ReachableBy Settles f' :=
    .next (.start (play_initial hf)) ⟨_, _, _, (pending_none_iff hp ht).mp hp', ht⟩
  exact ⟨f', hplay, no_signal_survives hreach⟩

end Maybenot.Framework

import Maybenot.Proofs.Limits
import Maybenot.Proofs.Chain

namespace Maybenot
open Lib

/-- The limit a machine samples on its way into a state. -/
def State.sampledLimit {R : Type} [RngCore R] (st : State) (rng : R) : Nat :=
  match st.action with
  | none => stateLimitMax
  | some a => (a.sampleLimit rng).1

namespace Framework

variable {R T D : Type} [RngCore R]

/-- A call of `transition` samples a next state. -/
structure Goes (f : Framework R T D) (mi : Nat) (event : Event) (rt : MachineRuntime T D)
    (cur : State) (s : Nat) : Prop where
  runtime : f.runtime[mi]? = some rt
  alive : rt.currentState ≠ stateEnd
  body : StateOf f mi rt.currentState cur
  sampled : (cur.sampleState event f.rng).1 = some s

/-- A call of `transition` goes to a state of the machine, with `rt'` the runtime there. -/
structure Enters (f : Framework R T D) (mi : Nat) (event : Event) (rt : MachineRuntime T D)
    (cur : State) (s : Nat) (st : State) (rt' : MachineRuntime T D) (f1 : Framework R T D) : Prop
    extends Goes f mi event rt cur s where
  real : s ≠ stateEnd ∧ s ≠ stateSignal
  target : StateOf f mi s st
  inside : f1 = (f.sampleNext mi event cur).arrive mi s rt st rt'.stateLimit
  entered : f1.runtime[mi]? = some rt'

/-- The calls of `transition` in the chain that one call starts: the call itself and, where the
state it enters zeroes a counter, those of the nested call. -/
inductive Calls (mi : Nat) : Framework R T D → Event → Framework R T D → Event → Prop
  | self : Calls mi f event f event
  | nested (he : Enters f mi event rt cur s st rt' f1)
      (hz : (f1.applyCounters mi rt' st).1 = true)
      (h : Calls mi (f1.applyCounters mi rt' st).2 .counterZero g ev) : Calls mi f event g ev

/-- Some call of the chain takes the machine to a different state, where its limit is new. -/
def Refreshes (mi : Nat) (f : Framework R T D) (event : Event) : Prop :=
  ∃ g ev rt cur s, Calls mi f event g ev ∧ Goes g mi ev rt cur s ∧
    (s ≠ stateEnd ∧ s ≠ stateSignal) ∧ s ≠ rt.currentState

/-- Some call of the chain takes the machine to `STATE_END`. -/
def Ends (mi : Nat) (f : Framework R T D) (event : Event) : Prop :=
  ∃ g ev rt cur, Calls mi f event g ev ∧ Goes g mi ev rt cur stateEnd

/-- The limit is the one sampled at the last entry of the chain into a different state, which
is this one. -/
def LastEntry (mi : Nat) (f : Framework R T D) (event : Event) (s limit : Nat) : Prop :=
  ∃ g ev rt cur st rt' f1, Calls mi f event g ev ∧ Enters g mi ev rt cur s st rt' f1 ∧
    s ≠ rt.currentState ∧ limit = st.sampledLimit (cur.sampleState ev g.rng).2 ∧
    ((f1.applyCounters mi rt' st).1 = true →
      ¬ Refreshes mi (f1.applyCounters mi rt' st).2 .counterZero ∧
        ¬ Ends mi (f1.applyCounters mi rt' st).2 .counterZero)

theorem Goes.unique {f : Framework R T D} {mi : Nat} {event : Event} {rt r : MachineRuntime T D}
    {cur cur' : State} {s s' : Nat} (h : Goes f mi event rt cur s)
    (h' : Goes f mi event r cur' s') : rt = r ∧ cur = cur' ∧ s = s' := by
  obtain rfl := Option.some.inj (h.runtime.symm.trans h'.runtime)
  obtain rfl := StateOf.unique h.body h'.body
  exact ⟨rfl, rfl, Option.some.inj (h.sampled.symm.trans h'.sampled)⟩

theorem Enters.unique {f f1 f2 : Framework R T D} {mi : Nat} {event : Event}
    {rt r rt' r' : MachineRuntime T D} {cur cur' st st' : State} {s s' : Nat}
    (h : Enters f mi event rt cur s st rt' f1) (h' : Enters f mi event r cur' s' st' r' f2) :
    st = st' ∧ rt' = r' ∧ f1 = f2 := by
  obtain ⟨rfl, rfl, rfl⟩ := h.toGoes.unique h'.toGoes
  obtain rfl := StateOf.unique h.target h'.target
  -- the limit that is passed on goes to the log alone
  have hruntime : f1.runtime = f2.runtime := by
    rw [h.inside, h'.inside]
    rfl
  have hentered := h.entered
  rw [hruntime] at hentered
  obtain rfl := Option.some.inj (hentered.symm.trans h'.entered)
  exact ⟨rfl, rfl, h.inside.trans h'.inside.symm⟩

section Chain

variable {f f1 : Framework R T D} {mi : Nat} {event : Event} {rt rt' : MachineRuntime T D}
  {cur st : State} {s : Nat}

/-- The chain of a call that enters a state. -/
theorem Enters.calls (he : Enters f mi event rt cur s st rt' f1) {g : Framework R T D}
    {ev : Event} :
    Calls mi f event g ev ↔ (g = f ∧ ev = event) ∨
      ((f1.applyCounters mi rt' st).1 = true ∧
        Calls mi (f1.applyCounters mi rt' st).2 .counterZero g ev) := by
  constructor
  · intro h
    cases h with
    | self => exact .inl ⟨rfl, rfl⟩
    | nested he' hz h =>
      obtain ⟨rfl, rfl, rfl⟩ := he.unique he'
      exact .inr ⟨hz, h⟩
  · intro h
    rcases h with ⟨rfl, rfl⟩ | ⟨hz, h⟩
    · exact .self
    · exact .nested he hz h

/-- The chain of a call that enters no state is the call alone. -/
theorem calls_alone (hno : ∀ rt cur s, Goes f mi event rt cur s → s = stateEnd ∨ s = stateSignal)
    {g : Framework R T D} {ev : Event} (h : Calls mi f event g ev) : g = f ∧ ev = event := by
  cases h with
  | self => exact ⟨rfl, rfl⟩
  | nested he _ _ =>
    rcases hno _ _ _ he.toGoes with hs | hs
    · exact absurd hs he.real.1
    · exact absurd hs he.real.2

/-- A call that enters no state refreshes no limit. -/
theorem refreshes_alone
    (hno : ∀ rt cur s, Goes f mi event rt cur s → s = stateEnd ∨ s = stateSignal) :
    ¬ Refreshes mi f event := by
  intro h
  obtain ⟨g, ev, rt, cur, s, hcall, hgo, hreal, _⟩ := h
  obtain ⟨rfl, rfl⟩ := calls_alone hno hcall
  rcases hno _ _ _ hgo with hs | hs
  · exact hreal.1 hs
  · exact hreal.2 hs

/-- A call that goes nowhere leaves the machine as it is. -/
theorem ends_alone (hno : ∀ rt cur s, Goes f mi event rt cur s → s = stateSignal) :
    ¬ Ends mi f event := by
  intro h
  obtain ⟨g, ev, rt, cur, hcall, hgo⟩ := h
  obtain ⟨rfl, rfl⟩ := calls_alone (fun rt cur s h => .inr (hno rt cur s h)) hcall
  exact absurd (hno _ _ _ hgo) (by decide)

theorem Enters.refreshes (he : Enters f mi event rt cur s st rt' f1) :
    Refreshes mi f event ↔ s ≠ rt.currentState ∨ ((f1.applyCounters mi rt' st).1 = true ∧
      Refreshes mi (f1.applyCounters mi rt' st).2 .counterZero) := by
  constructor
  · intro h
    obtain ⟨g, ev, r, cur', s', hcall, hgo, hreal, hs⟩ := h
    rcases he.calls.mp hcall with ⟨rfl, rfl⟩ | ⟨hz, hcall⟩
    · obtain ⟨rfl, rfl, rfl⟩ := he.toGoes.unique hgo
      exact .inl hs
    · exact .inr ⟨hz, g, ev, r, cur', s', hcall, hgo, hreal, hs⟩
  · intro h
    rcases h with hs | ⟨hz, g, ev, r, cur', s', hcall, hgo, hreal, hs⟩
    · exact ⟨f, event, rt, cur, s, .self, he.toGoes, he.real, hs⟩
    · exact ⟨g, ev, r, cur', s', .nested he hz hcall, hgo, hreal, hs⟩

theorem Enters.ends (he : Enters f mi event rt cur s st rt' f1) :
    Ends mi f event ↔ (f1.applyCounters mi rt' st).1 = true ∧
      Ends mi (f1.applyCounters mi rt' st).2 .counterZero := by
  constructor
  · intro h
    obtain ⟨g, ev, r, cur', hcall, hgo⟩ := h
    rcases he.calls.mp hcall with ⟨rfl, rfl⟩ | ⟨hz, hcall⟩
    · obtain ⟨rfl, rfl, rfl⟩ := he.toGoes.unique hgo
      exact absurd rfl he.real.1
    · exact ⟨hz, g, ev, r, cur', hcall, hgo⟩
  · intro h
    obtain ⟨hz, g, ev, r, cur', hcall, hgo⟩ := h
    exact ⟨g, ev, r, cur', .nested he hz hcall, hgo⟩

/-- On the way into a different state the limit is sampled. -/
theorem Enters.limit (he : Enters f mi event rt cur s st rt' f1) (hs : s ≠ rt.currentState) :
    rt'.stateLimit = st.sampledLimit (cur.sampleState event f.rng).2 := by
  have hentered := he.entered
  rw [he.inside] at hentered
  unfold arrive enterState State.sampledLimit at *
  rw [if_neg (Ne.symm hs)] at hentered
  cases ha : st.action with
  | none =>
    simp only [ha] at hentered
    obtain rfl := Option.some.inj ((set_getElem? he.runtime).symm.trans hentered)
    rfl
  | some a =>
    simp only [ha] at hentered
    obtain rfl := Option.some.inj ((set_getElem? he.runtime).symm.trans hentered)
    rfl

/-- The last entry of the nested call is that of the whole chain. -/
theorem LastEntry.nested {s' limit : Nat} (he : Enters f mi event rt cur s st rt' f1)
    (hz : (f1.applyCounters mi rt' st).1 = true)
    (h : LastEntry mi (f1.applyCounters mi rt' st).2 .counterZero s' limit) :
    LastEntry mi f event s' limit := by
  obtain ⟨g, ev, r, cur', st', r', g1, hcall, hlast⟩ := h
  exact ⟨g, ev, r, cur', st', r', g1, .nested he hz hcall, hlast⟩

/-- What the chain of a call says of its answer and of the runtime it leaves. -/
structure Outcome (mi : Nat) (f : Framework R T D) (event : Event) (c : StateChange)
    (after : MachineRuntime T D) : Prop where
  unchanged : c = .unchanged ↔ ¬ Refreshes mi f event ∧ ¬ Ends mi f event
  ended : after.currentState = stateEnd ↔ Ends mi f event
  last : c = .changed → after.currentState ≠ stateEnd →
    LastEntry mi f event after.currentState after.stateLimit

/-- A call that goes nowhere. -/
theorem outcome_alone (hne : rt.currentState ≠ stateEnd)
    (hno : ∀ rt cur s, Goes f mi event rt cur s → s = stateSignal) :
    Outcome mi f event .unchanged rt where
  unchanged := iff_of_true rfl
    ⟨refreshes_alone fun rt cur s h => .inr (hno rt cur s h), ends_alone hno⟩
  ended := iff_of_false hne (ends_alone hno)
  last h := absurd h (by simp)

/-- A call that ends the machine. -/
theorem outcome_end {after : MachineRuntime T D} (hgo : Goes f mi event rt cur stateEnd)
    (hafter : after.currentState = stateEnd) : Outcome mi f event .changed after where
  unchanged := iff_of_false (by simp) fun h => h.2 ⟨f, event, rt, cur, .self, hgo⟩
  ended := iff_of_true hafter ⟨f, event, rt, cur, .self, hgo⟩
  last _ h := absurd hafter h

/-- A call that enters a state and zeroes no counter there. -/
theorem Enters.outcome {after : MachineRuntime T D} (he : Enters f mi event rt cur s st rt' f1)
    (hz : (f1.applyCounters mi rt' st).1 = false) (hstate : after.currentState = s)
    (hlimit : after.stateLimit = rt'.stateLimit) :
    Outcome mi f event (if rt.currentState = s then .unchanged else .changed) after := by
  have hrefresh : Refreshes mi f event ↔ s ≠ rt.currentState := by
    rw [he.refreshes, hz]
    simp
  have hends : ¬ Ends mi f event := by
    rw [he.ends, hz]
    simp
  constructor
  · rw [ite_unchanged, hrefresh, not_not, and_iff_left hends]
    exact eq_comm
  · exact iff_of_false (hstate ▸ he.real.1) hends
  · intro hc _
    have hs : s ≠ rt.currentState := by
      intro hback
      rw [if_pos hback.symm] at hc
      cases hc
    subst hstate
    refine ⟨f, event, rt, cur, st, rt', f1, .self, he, hs, hlimit.trans (he.limit hs), ?_⟩
    intro h
    exact absurd (hz.symm.trans h) (by decide)

/-- A call that enters a state and zeroes a counter there. -/
theorem Enters.outcome_nested {after : MachineRuntime T D} {change : StateChange}
    (he : Enters f mi event rt cur s st rt' f1) (hz : (f1.applyCounters mi rt' st).1 = true)
    (hkept : change = .unchanged →
      after.currentState = s ∧ after.stateLimit = rt'.stateLimit)
    (h : Outcome mi (f1.applyCounters mi rt' st).2 .counterZero change after) :
    Outcome mi f event (if rt.currentState = after.currentState ∧ change = .unchanged
      then .unchanged else .changed) after := by
  have hends : Ends mi f event ↔ Ends mi (f1.applyCounters mi rt' st).2 .counterZero := by
    rw [he.ends, and_iff_right hz]
  have hrefresh := he.refreshes
  rw [and_iff_right hz] at hrefresh
  constructor
  · rw [ite_unchanged, hrefresh, hends, not_or, and_assoc, ← h.unchanged, not_not]
    constructor
    · intro hback
      exact ⟨(hkept hback.2).1.symm.trans hback.1.symm, hback.2⟩
    · intro hback
      exact ⟨((hkept hback.2).1.trans hback.1).symm, hback.2⟩
  · rw [hends]
    exact h.ended
  · intro hc hne
    cases change with
    | changed => exact (h.last rfl hne).nested he hz
    | unchanged =>
      -- the nested call went nowhere, so the entry is this one
      obtain ⟨hstate, hlimit⟩ := hkept rfl
      have hs : s ≠ rt.currentState := by
        intro hback
        rw [if_pos ⟨hback.symm.trans hstate.symm, rfl⟩] at hc
        cases hc
      subst hstate
      exact ⟨f, event, rt, cur, st, rt', f1, .self, he, hs, hlimit.trans (he.limit hs),
        fun _ => h.unchanged.mp rfl⟩

end Chain

variable [Time.Duration D] [Time.Instant T D]

theorem Moves.outcome {f f' : Framework R T D} {mi : Nat} {event : Event} {c : StateChange}
    {rt : MachineRuntime T D} (h : Moves f mi event c f') (hrt : f.runtime[mi]? = some rt)
    (halive : rt.currentState ≠ stateEnd) :
    ∃ after, f'.runtime[mi]? = some after ∧ Outcome mi f event c after := by
  induction h generalizing rt with
  | ended hrt0 hend =>
    obtain rfl := Option.some.inj (hrt.symm.trans hrt0)
    exact absurd hend halive
  | idle hrt0 hne hcur hs =>
    refine ⟨rt, hrt, outcome_alone halive fun r cur s hgo => ?_⟩
    obtain rfl := Option.some.inj (hrt0.symm.trans hgo.runtime)
    obtain rfl := StateOf.unique hcur hgo.body
    exact absurd (hs.symm.trans hgo.sampled) (by simp)
  | stop hrt0 hne hcur hs =>
    exact ⟨_, set_getElem? hrt0, outcome_end ⟨hrt0, hne, hcur, hs⟩ rfl⟩
  | signal hrt0 hne hcur hs =>
    refine ⟨rt, hrt, outcome_alone halive fun r cur s hgo => ?_⟩
    exact (Goes.unique ⟨hrt0, hne, hcur, hs⟩ hgo).2.2.symm
  | enter hrt0 hne hcur hs hreal hst hin hrt' hm hbelow hz hlen =>
    obtain ⟨a, b, hab⟩ := applyCounters_runtime _ hrt'
    have he : Enters _ _ _ _ _ _ _ _ _ := ⟨⟨hrt0, hne, hcur, hs⟩, hreal, hst, hin, hrt'⟩
    have hcur' := arrived_current hrt0 hin hrt'
    exact ⟨_, (congrArg (·[_]?) (schedule_runtime _ _ _ _ _ _)).trans hab, he.outcome hz hcur' rfl⟩
  | chain hrt0 hne hcur hs hreal hst hin hrt' hm hbelow hz hnest ha hafter ih =>
    obtain ⟨a, b, hab⟩ := applyCounters_runtime _ hrt'
    have he : Enters _ _ _ _ _ _ _ _ _ := ⟨⟨hrt0, hne, hcur, hs⟩, hreal, hst, hin, hrt'⟩
    have hcur' := arrived_current hrt0 hin hrt'
    obtain ⟨after, hafter', hnested⟩ := ih hab (hcur' ▸ hreal.1)
    obtain rfl := Option.some.inj (hafter.symm.trans hafter')
    refine ⟨_, (congrArg (·[_]?) (schedule_runtime _ _ _ _ _ _)).trans hafter,
      he.outcome_nested hz ?_ hnested⟩
    intro hc
    obtain ⟨kept, hkept, hstate, hlimit⟩ := hnest.unchanged hc hab
    obtain rfl := Option.some.inj (hafter.symm.trans hkept)
    exact ⟨hstate.trans hcur', hlimit⟩

/-- The turn of the machine that an event names: its transition, and the limit decremented if
the chain neither refreshed it nor ended the machine. -/
theorem turn_limited {f f' : Framework R T D} {e : TriggerEvent} {blocked : D} {mi : Nat}
    {rt : MachineRuntime T D} (hl : e.limits mi = true) (hrt : f.runtime[mi]? = some rt)
    (hne : rt.currentState ≠ stateEnd) (h : turn e blocked f mi = .ok f') :
    ∃ g c g1 decrement, g = f.setRuntime mi (rt.recorded e blocked) ∧
      g.transition mi e.event = .ok (c, g1) ∧
      (decrement = true ↔ ¬ Refreshes mi g e.event ∧ ¬ Ends mi g e.event) ∧
      (if decrement = true then g1.decrementLimit mi else pure g1) = .ok f' := by
  unfold turn at h
  rw [if_pos (limits_concerns hl), bind_eq (at?_ok.mpr hrt), if_pos hl] at h
  simp only [transitionLimited, bind_ok, at?_ok] at h
  obtain ⟨⟨c, g1⟩, ht, after, hafter, h⟩ := h
  have hmoves := transition_ok.mp ht
  have halive : (rt.recorded e blocked).currentState ≠ stateEnd := by
    rw [recorded_state]
    exact hne
  obtain ⟨after', hafter', hout⟩ := hmoves.outcome (set_getElem? hrt) halive
  obtain rfl := Option.some.inj (hafter.symm.trans hafter')
  have hguard : (c = .unchanged ∧ after.currentState ≠ stateEnd) ↔ c = .unchanged := by
    refine and_iff_left_of_imp fun hc => ?_
    rw [ne_eq, hout.ended]
    exact (hout.unchanged.mp hc).2
  refine ⟨_, c, g1, decide (c = .unchanged), rfl, ht, ?_, ?_⟩
  · rw [decide_eq_true_iff]
    exact hout.unchanged
  · rw [← h]
    by_cases hc : c = .unchanged
    · rw [if_pos (hguard.mpr hc), if_pos (decide_eq_true hc)]
    · rw [if_neg (hguard.not.mpr hc), if_neg (by simpa using hc)]

/-- An event reaches a machine as the turns before left it, and the turns after leave it alone. -/
theorem processEvent_split {f f' : Framework R T D} {e : TriggerEvent} {mi : Nat}
    (hmi : mi < f.runtime.length) (h : f.processEvent e = .ok f') :
    ∃ g g2, (List.range mi).foldlM (turn e f.blockedFor) (f.recorded e) = .ok g ∧
      g.runtime[mi]? = f.runtime[mi]? ∧ turn e f.blockedFor g mi = .ok g2 ∧
      f'.runtime[mi]? = g2.runtime[mi]? ∧ f'.actions[mi]? = g2.actions[mi]? := by
  rw [processEvent_eq] at h
  have hlen : mi < (f.recorded e).runtime.length := by
    rw [recorded_runtime]
    exact hmi
  obtain ⟨g, g2, rest, hbefore, hturn, hrest, hafter⟩ := foldlM_split hlen h
  have hothers {is : List Nat} {s t : Framework R T D} (his : ∀ i ∈ is, mi ≠ i)
      (hfold : is.foldlM (turn e f.blockedFor) s = .ok t) :
      t.runtime[mi]? = s.runtime[mi]? ∧ t.actions[mi]? = s.actions[mi]? := by
    refine foldlM_keeps (P := fun t => t.runtime[mi]? = s.runtime[mi]? ∧
      t.actions[mi]? = s.actions[mi]?) ?_ ⟨rfl, rfl⟩ hfold
    intro a i hi b hsame hstep
    have hother := (turn_ok hstep).apart_of.others mi (his i hi)
    exact ⟨hother.1.trans hsame.1, hother.2.trans hsame.2⟩
  refine ⟨g, g2, hbefore, ?_, hturn, hothers (fun i hi => Nat.ne_of_lt (hrest i hi)) hafter⟩
  rw [(hothers (fun i hi => Nat.ne_of_gt (List.mem_range.mp hi)) hbefore).1, recorded_runtime]

/-- A transition answers that nothing changed exactly if no call of its chain moved the machine.
Then state and limit are the old ones; otherwise the limit is that of the last entry, unless the
machine ended. The events that use a limit up do so exactly after the former. -/
theorem transition_refreshes {f : Framework R T D} {mi : Nat} {rt : MachineRuntime T D}
    (hrt : f.runtime[mi]? = some rt) (hne : rt.currentState ≠ stateEnd) :
    (Reachable f → ∀ event, ∃ c f', f.transition mi event = .ok (c, f')) ∧
    (∀ event c f', f.transition mi event = .ok (c, f') →
      (c = .unchanged ↔ ¬ Refreshes mi f event ∧ ¬ Ends mi f event) ∧
      ∃ after, f'.runtime[mi]? = some after ∧
        (c = .unchanged →
          after.currentState = rt.currentState ∧ after.stateLimit = rt.stateLimit) ∧
        (after.currentState = stateEnd ↔ Ends mi f event) ∧
        (c = .changed → after.currentState ≠ stateEnd →
          LastEntry mi f event after.currentState after.stateLimit)) ∧
    (∀ e f', e.limits mi = true → f.processEvent e = .ok f' →
      ∃ g0 g c g1 decrement g2,
        (List.range mi).foldlM (turn e f.blockedFor) (f.recorded e) = .ok g0 ∧
        g = g0.setRuntime mi (rt.recorded e f.blockedFor) ∧
        g.transition mi e.event = .ok (c, g1) ∧
        (decrement = true ↔ ¬ Refreshes mi g e.event ∧ ¬ Ends mi g e.event) ∧
        (if decrement = true then g1.decrementLimit mi else pure g1) = .ok g2 ∧
        f'.runtime[mi]? = g2.runtime[mi]? ∧ f'.actions[mi]? = g2.actions[mi]?) := by
  have hmi := (List.getElem?_eq_some_iff.mp hrt).1
  refine ⟨fun hf event => ?_, fun event c f' h => ?_, fun e f' hl h => ?_⟩
  · have hwf := hf.wellFormed.1
    obtain ⟨c, f', hm⟩ := moves_total hwf (hwf.runtime ▸ hmi) event
    exact ⟨c, f', hm.transition⟩
  · have hm := transition_ok.mp h
    obtain ⟨after, hafter, hout⟩ := hm.outcome hrt hne
    refine ⟨hout.unchanged, after, hafter, fun hc => ?_, hout.ended, hout.last⟩
    obtain ⟨kept, hkept, hstate, hlimit⟩ := hm.unchanged hc hrt
    obtain rfl := Option.some.inj (hafter.symm.trans hkept)
    exact ⟨hstate, hlimit⟩
  · obtain ⟨g0, g2, hbefore, hsame, hturn, hkept⟩ := processEvent_split hmi h
    obtain ⟨g, c, g1, decrement, hg, ht, hiff, hdec⟩ :=
      turn_limited hl (hsame.trans hrt) hne hturn
    exact ⟨g0, g, c, g1, decrement, g2, hbefore, hg, ht, hiff, hdec, hkept⟩

/-- A machine that pads up to twice, and that a packet of padding takes out of its state and
back into it. -/
def outAndBack : Machine :=
  .free [
    { State.new (fun
        | .normalSent => certain 0
        | .paddingSent => certain 1
        | _ => []) with
      action := some (padUpTo 2)
      counter := (some ⟨.increment, none, false⟩, none) },
    { State.new (fun
        | .counterZero => certain 0
        | _ => []) with
      counter := (some ⟨.decrement, none, false⟩, none) }]

/-- The chain leaves the state and comes back, which counts as a change: the limit is that of
the way back. -/
theorem out_and_back_changed : ∃ (f f' : Framework Unit Instant Duration)
    (rt after : MachineRuntime Instant Duration), Reachable f ∧ f.runtime[0]? = some rt ∧
    f.transition 0 .paddingSent = .ok (.changed, f') ∧ f'.runtime[0]? = some after ∧
    after.currentState = rt.currentState ∧ ¬ Ends 0 f .paddingSent ∧ Refreshes 0 f .paddingSent ∧
    LastEntry 0 f .paddingSent after.currentState after.stateLimit := by
  have hrun : ((play [outAndBack] [([.normalSent], 0)]).bind fun f =>
      f.runtime[0]?.bind fun rt => (f.transition 0 .paddingSent).toOption.bind fun r =>
        r.2.runtime[0]?.map fun after => (r.1, place rt, place after)) =
      some (.changed, (0, 2), (0, 2)) := by decide +kernel
  simp only [Option.bind_eq_some_iff, Option.map_eq_some_iff, toOption_eq_some, place,
    Prod.mk.injEq] at hrun
  obtain ⟨f, h, rt, hrt, ⟨c, f'⟩, ht, after, hafter, hc, ⟨hs, _⟩, hs', _⟩ := hrun
  have hne : rt.currentState ≠ stateEnd := by
    rw [hs]
    decide
  have hstay : after.currentState ≠ stateEnd := by
    rw [hs']
    decide
  obtain ⟨hiff, after', hafter', _, hends, hlast⟩ :=
    (transition_refreshes hrt hne).2.1 .paddingSent c f' ht
  obtain rfl := Option.some.inj (hafter.symm.trans hafter')
  obtain rfl : c = .changed := hc
  have hno : ¬ Ends 0 f .paddingSent := hends.not.mp hstay
  have hrefresh : Refreshes 0 f .paddingSent := by
    by_contra hnone
    exact absurd (hiff.mpr ⟨hnone, hno⟩) (by decide)
  exact ⟨f, f', rt, after, play_reachable h, hrt, ht, hafter, hs'.trans hs.symm, hno, hrefresh,
    hlast rfl hstay⟩

/-- A state that pads up to twice, but that ends with the first packet of padding. -/
def onceState : State :=
  { State.new (fun
      | .paddingSent => certain stateEnd
      | _ => []) with
    action := some (padUpTo 2) }

def oncePadder : Machine := .free [onceState]

theorem onceState_ends : (onceState.sampleState .paddingSent ()).1 = some stateEnd := by
  decide +kernel

/-- The limit of a machine that ends is neither refreshed nor decremented. -/
theorem ended_not_decremented : ∃ (f f' g : Framework Unit Instant Duration)
    (rt rt' : MachineRuntime Instant Duration), Reachable f ∧
    (f.startCall 0).runtime[0]? = some rt ∧ rt.currentState ≠ stateEnd ∧
    (f.startCall 0).processEvent (.paddingSent 0) = .ok f' ∧ f'.runtime[0]? = some rt' ∧
    g = ((f.startCall 0).recorded (.paddingSent 0)).setRuntime 0
      (rt.recorded (.paddingSent 0) (f.startCall 0).blockedFor) ∧
    ¬ Refreshes 0 g .paddingSent ∧ rt.stateLimit = 2 ∧ rt'.stateLimit = 2 := by
  have hrun : ((play [oncePadder] []).bind fun f =>
      ((f.startCall 0).processEvent (.paddingSent 0)).toOption.bind fun f' =>
        (f.startCall 0).runtime[0]?.bind fun rt => f'.runtime[0]?.map fun rt' =>
          (place rt, place rt', decide (f.machines = [oncePadder]))) =
      some ((0, 2), (stateEnd, 2), true) := by decide +kernel
  simp only [Option.bind_eq_some_iff, Option.map_eq_some_iff, toOption_eq_some, place,
    Prod.mk.injEq, decide_eq_true_eq] at hrun
  obtain ⟨f, h, f', hf', rt, hrt, rt', hrt', ⟨hs, hl⟩, ⟨hs', hl'⟩, hm⟩ := hrun
  have hne : rt.currentState ≠ stateEnd := by
    rw [hs]
    decide
  refine ⟨f, f', _, rt, rt', play_reachable h, hrt, hne, hf', hrt', rfl, ?_, hl, hl'⟩
  apply refreshes_alone
  intro r cur s hgo
  have hstate : r.currentState = 0 := by
    obtain rfl := Option.some.inj ((set_getElem? hrt).symm.trans hgo.runtime)
    exact hs
  obtain ⟨m, hm', hcur⟩ := hgo.body
  have hm0 : f.machines[0]? = some oncePadder := by
    rw [hm]
    rfl
  obtain rfl := Option.some.inj (hm0.symm.trans hm')
  rw [hstate] at hcur
  obtain rfl := Option.some.inj hcur
  exact .inl (Option.some.inj (hgo.sampled.symm.trans onceState_ends))

end Framework

end Maybenot

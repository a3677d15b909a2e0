import Maybenot.Proofs.Frame

namespace Maybenot.Framework
open Lib

variable {R T D : Type} [RngCore R] [Time.Duration D] [Time.Instant T D]

/-- What a transition can do. The last case has the nested transition that a
zeroed counter triggers. -/
inductive Moves : Framework R T D → Nat → Event → StateChange → Framework R T D → Prop
  | ended (hrt : f.runtime[mi]? = some rt) (hend : rt.currentState = stateEnd) :
      Moves f mi event .unchanged (f.note (.performed mi event))
  | idle (hrt : f.runtime[mi]? = some rt) (hne : rt.currentState ≠ stateEnd)
      (hcur : StateOf f mi rt.currentState cur)
      (hs : (cur.sampleState event f.rng).1 = none) :
      Moves f mi event .unchanged (f.sampleNext mi event cur)
  | stop (hrt : f.runtime[mi]? = some rt) (hne : rt.currentState ≠ stateEnd)
      (hcur : StateOf f mi rt.currentState cur)
      (hs : (cur.sampleState event f.rng).1 = some stateEnd) :
      Moves f mi event .changed
        (((f.sampleNext mi event cur).note (.sampled mi stateEnd)).setRuntime mi
          { rt with currentState := stateEnd })
  | signal (hrt : f.runtime[mi]? = some rt) (hne : rt.currentState ≠ stateEnd)
      (hcur : StateOf f mi rt.currentState cur)
      (hs : (cur.sampleState event f.rng).1 = some stateSignal) :
      Moves f mi event .unchanged
        { (f.sampleNext mi event cur).note (.sampled mi stateSignal) with
          signalPending := raiseSignal f.signalPending mi }
  | enter (hrt : f.runtime[mi]? = some rt) (hne : rt.currentState ≠ stateEnd)
      (hcur : StateOf f mi rt.currentState cur)
      (hs : (cur.sampleState event f.rng).1 = some s)
      (hreal : s ≠ stateEnd ∧ s ≠ stateSignal) (hst : StateOf f mi s st)
      (hin : f1 = (f.sampleNext mi event cur).arrive mi s rt st rt'.stateLimit)
      (hrt' : f1.runtime[mi]? = some rt') (hm : f1.machines[mi]? = some m)
      (hbelow : f1.belowActionLimits rt' m = .ok below)
      (hz : (f1.applyCounters mi rt' st).1 = false)
      (hlen : below = true → mi < f1.actions.length) :
      Moves f mi event (if rt.currentState = s then .unchanged else .changed)
        ((f1.applyCounters mi rt' st).2.schedule mi s rt'.stateLimit st below)
  | chain (hrt : f.runtime[mi]? = some rt) (hne : rt.currentState ≠ stateEnd)
      (hcur : StateOf f mi rt.currentState cur)
      (hs : (cur.sampleState event f.rng).1 = some s)
      (hreal : s ≠ stateEnd ∧ s ≠ stateSignal) (hst : StateOf f mi s st)
      (hin : f1 = (f.sampleNext mi event cur).arrive mi s rt st rt'.stateLimit)
      (hrt' : f1.runtime[mi]? = some rt') (hm : f1.machines[mi]? = some m)
      (hbelow : f1.belowActionLimits rt' m = .ok below)
      (hz : (f1.applyCounters mi rt' st).1 = true)
      (hnest : Moves (f1.applyCounters mi rt' st).2 mi .counterZero change f2)
      (ha : f2.actions[mi]? = some a) (hafter : f2.runtime[mi]? = some after) :
      Moves f mi event
        (if rt.currentState = after.currentState ∧ change = .unchanged then .unchanged
          else .changed)
        (f2.schedule mi s rt'.stateLimit st (a.isNone && below))

theorem Moves.frame {f f' : Framework R T D} {mi : Nat} {event : Event} {c : StateChange}
    (h : Moves f mi event c f') : Frame mi f f' := by
  induction h with
  | ended hrt hend => exact Frame.note _ _ _
  | idle hrt hne hcur hs => exact Frame.sampleNext _ _ _ _
  | stop hrt hne hcur hs =>
    exact ((Frame.sampleNext _ _ _ _).trans (Frame.note _ _ _)).trans (Frame.setRuntime hrt rfl)
  | signal hrt hne hcur hs => exact Frame.same _ rfl rfl rfl
  | enter hrt hne hcur hs hreal hst hin hrt' hm hbelow hz hlen =>
    exact ((Frame.arrived hrt hin).trans (Frame.applyCounters hrt')).trans
      (Frame.schedule _ _ _ _ _ _)
  | chain hrt hne hcur hs hreal hst hin hrt' hm hbelow hz hnest ha hafter ih =>
    exact (((Frame.arrived hrt hin).trans (Frame.applyCounters hrt')).trans ih).trans
      (Frame.schedule _ _ _ _ _ _)

theorem Moves.present {f f' : Framework R T D} {mi : Nat} {event : Event} {c : StateChange}
    {rt : MachineRuntime T D} (h : Moves f mi event c f') (hrt : f.runtime[mi]? = some rt) :
    ∃ rt', f'.runtime[mi]? = some rt' := by
  have hi := (List.getElem?_eq_some_iff.mp hrt).1
  rw [← h.frame.runtimeLength] at hi
  exact ⟨_, List.getElem?_eq_getElem hi⟩

omit [Time.Duration D] [Time.Instant T D] in
theorem applyCounters_runtime {f : Framework R T D} {mi : Nat} {rt : MachineRuntime T D}
    (st : State) (hrt : f.runtime[mi]? = some rt) :
    ∃ a b, (f.applyCounters mi rt st).2.runtime[mi]? =
      some { rt with counterA := a, counterB := b } :=
  ⟨_, _, set_getElem? hrt⟩

omit [Time.Duration D] [Time.Instant T D] in
/-- A state without counters updates none. -/
theorem applyCounters_none {st : State} (h : st.counter = (none, none)) (f : Framework R T D)
    (mi : Nat) (rt : MachineRuntime T D) :
    f.applyCounters mi rt st = (false, f.setRuntime mi rt) := by
  unfold applyCounters
  rw [h]
  simp only [counterChange, Bool.or_false]

theorem ite_unchanged {p : Prop} [Decidable p] :
    (if p then StateChange.unchanged else .changed) = .unchanged ↔ p := by
  by_cases hp : p <;> simp [hp]

/-- A transition that counts as unchanged leaves the state and its limit. -/
theorem Moves.unchanged {f f' : Framework R T D} {mi : Nat} {event : Event} {c : StateChange}
    {rt : MachineRuntime T D} (h : Moves f mi event c f') (hc : c = .unchanged)
    (hrt : f.runtime[mi]? = some rt) :
    ∃ rt', f'.runtime[mi]? = some rt' ∧ rt'.currentState = rt.currentState ∧
      rt'.stateLimit = rt.stateLimit := by
  induction h generalizing rt with
  | ended _ _ => exact ⟨rt, hrt, rfl, rfl⟩
  | idle _ _ _ _ => exact ⟨rt, hrt, rfl, rfl⟩
  | stop _ _ _ _ => exact absurd hc (by simp)
  | signal _ _ _ _ => exact ⟨rt, hrt, rfl, rfl⟩
  | enter hrt0 hne hcur hs hreal hst hin hrt' hm hbelow hz hlen =>
    obtain rfl := Option.some.inj (hrt.symm.trans hrt0)
    obtain rfl := ite_unchanged.mp hc
    rw [arrived_same hin] at hrt'
    obtain rfl := Option.some.inj (hrt.symm.trans hrt')
    obtain ⟨a, b, hab⟩ := applyCounters_runtime _ ((congrArg (·[_]?) (arrived_same hin)).trans hrt)
    exact ⟨_, (congrArg (·[_]?) (schedule_runtime _ _ _ _ _ _)).trans hab, rfl, rfl⟩
  | chain hrt0 hne hcur hs hreal hst hin hrt' hm hbelow hz hnest ha hafter ih =>
    obtain rfl := Option.some.inj (hrt.symm.trans hrt0)
    obtain ⟨hback, hchange⟩ := ite_unchanged.mp hc
    obtain ⟨a, b, hab⟩ := applyCounters_runtime _ hrt'
    obtain ⟨after', hafter', hstate, hlimit⟩ := ih hchange hab
    obtain rfl := Option.some.inj (hafter.symm.trans hafter')
    -- the nested transition kept the state that this one went to, so it went nowhere
    have hcur' := arrived_current hrt hin hrt'
    obtain rfl : rt.currentState = _ := (hback.trans hstate).trans hcur'
    rw [arrived_same hin] at hrt'
    obtain rfl := Option.some.inj (hrt.symm.trans hrt')
    exact ⟨_, (congrArg (·[_]?) (schedule_runtime _ _ _ _ _ _)).trans hafter, hstate, hlimit⟩

omit [RngCore R] [Time.Duration D] [Time.Instant T D] in
/-- The answer of a transition, with its test restated. -/
theorem answer_ok {p q : Prop} [Decidable p] [Decidable q] {f f' : Framework R T D}
    {c : StateChange} (hpq : p ↔ q)
    (h : (if p then pure (.unchanged, f) else pure (.changed, f)) =
      (.ok (c, f') : Exec (StateChange × Framework R T D))) :
    c = (if q then .unchanged else .changed) ∧ f' = f := by
  split at h
  all_goals
    rename_i hp
    rw [hpq] at hp
    simp only [pure_ok, Prod.mk.injEq] at h
    simp [hp, h]

/-- Every transition the code makes is one of these. -/
theorem transition_moves (f : Framework R T D) (mi : Nat) (event : Event) (c : StateChange)
    (f' : Framework R T D) (h : f.transition mi event = .ok (c, f')) :
    Moves f mi event c f' := by
  generalize hb : f.zeroBudget = budget
  induction budget using Nat.strongRecOn generalizing f event c f' with
  | ind budget ih =>
    rw [transition] at h
    simp only [bind_ok, at?_ok, Machine.stateAt, note_runtime, note_machines] at h
    obtain ⟨rt, hrt, h⟩ := h
    split at h
    · rename_i hend
      simp only [pure_ok, Prod.mk.injEq] at h
      obtain ⟨rfl, rfl⟩ := h
      exact .ended hrt hend
    rename_i hne
    simp only [bind_ok, at?_ok] at h
    obtain ⟨m, hm, cur, hcur, h⟩ := h
    have hof : StateOf f mi rt.currentState cur := ⟨m, hm, hcur⟩
    split at h
    · rename_i hs
      simp only [pure_ok, Prod.mk.injEq] at h
      obtain ⟨rfl, rfl⟩ := h
      exact .idle hrt hne hof hs
    rename_i s hs
    split at h
    · rename_i he
      subst he
      simp only [pure_ok, Prod.mk.injEq] at h
      obtain ⟨rfl, rfl⟩ := h
      exact .stop hrt hne hof hs
    rename_i hnend
    split at h
    · rename_i he
      subst he
      simp only [pure_ok, Prod.mk.injEq] at h
      obtain ⟨rfl, rfl⟩ := h
      exact .signal hrt hne hof hs
    rename_i hnsig
    simp only [bind_ok, at?_ok] at h
    obtain ⟨st, hst, rt', hrt', below, hbelow, ⟨⟨allow, moved⟩, f2⟩, hcount, f3, hsched, after,
      hafter, h⟩ := h
    have hst' : StateOf f mi s st := ⟨m, hm, hst⟩
    obtain ⟨f1, hin⟩ : ∃ f1, f1 = (f.sampleNext mi event cur).arrive mi s rt st rt'.stateLimit :=
      ⟨_, rfl⟩
    replace hbelow : f1.belowActionLimits rt' m = .ok below := hin ▸ hbelow
    replace hcount : f1.updateCounter mi = .ok ((allow, moved), f2) := hin ▸ hcount
    replace hrt' : f1.runtime[mi]? = some rt' := hin ▸ hrt'
    have hframe1 := Frame.arrived hrt hin
    have hcur' := arrived_current hrt hin hrt'
    have hm1 : f1.machines[mi]? = some m := hframe1.machines ▸ hm
    -- the counter update reads the runtime and the state just entered
    rw [updateCounter] at hcount
    simp only [bind_ok, at?_ok, Machine.stateAt] at hcount
    obtain ⟨rt2, hrt2, m2, hm2, st2, hst2, hcount⟩ := hcount
    obtain rfl := Option.some.inj (hrt'.symm.trans hrt2)
    obtain rfl := Option.some.inj (hm1.symm.trans hm2)
    obtain rfl := Option.some.inj (hst.symm.trans (hcur' ▸ hst2))
    have hframe2 : Frame mi f (f1.applyCounters mi rt' st).2 :=
      hframe1.trans (Frame.applyCounters hrt')
    split at hcount
    · rename_i hz
      simp only [bind_ok, at?_ok] at hcount
      obtain ⟨⟨change, f4⟩, hnest, a, ha, hcount⟩ := hcount
      simp only [pure_ok, Prod.mk.injEq] at hcount
      obtain ⟨⟨rfl, rfl⟩, rfl⟩ := hcount
      have hbudget : f1.zeroBudget = budget := by
        rw [hin, zeroBudget_arrive, ← hb]
        rfl
      have hmoves := ih _ (hbudget ▸ zeroBudget_applyCounters hz) _ _ _ _ hnest rfl
      obtain ⟨_, rfl⟩ := scheduleIf_ok ((hframe2.trans hmoves.frame).stateOf.mpr hst') hsched
      rw [schedule_runtime] at hafter
      obtain ⟨rfl, rfl⟩ := answer_ok
        (q := rt.currentState = after.currentState ∧ change = .unchanged)
        (by cases change <;> simp) h
      exact .chain hrt hne hof hs ⟨hnend, hnsig⟩ hst' hin hrt' hm1 hbelow hz hmoves ha hafter
    · rename_i hz
      simp only [pure_ok, Prod.mk.injEq] at hcount
      obtain ⟨⟨rfl, rfl⟩, rfl⟩ := hcount
      obtain ⟨hlen, rfl⟩ := scheduleIf_ok (hframe2.stateOf.mpr hst') hsched
      obtain ⟨a, b, hab⟩ := applyCounters_runtime st hrt'
      rw [schedule_runtime, hab] at hafter
      obtain rfl := Option.some.inj hafter
      obtain ⟨rfl, rfl⟩ := answer_ok (q := rt.currentState = s) (by simp [hcur']) h
      exact .enter hrt hne hof hs ⟨hnend, hnsig⟩ hst' hin hrt' hm1 hbelow (by simpa using hz)
        (fun h => hlen (by simpa using h))

theorem updateCounter_zeroed {f f' : Framework R T D} {mi : Nat} {rt : MachineRuntime T D}
    {st : State} {change : StateChange} {a : Option (TriggerAction D)}
    (hrt : f.runtime[mi]? = some rt) (hst : StateOf f mi rt.currentState st)
    (hz : (f.applyCounters mi rt st).1 = true)
    (hnest : (f.applyCounters mi rt st).2.transition mi .counterZero = .ok (change, f'))
    (ha : f'.actions[mi]? = some a) :
    f.updateCounter mi = .ok ((a.isNone, change == .changed), f') := by
  obtain ⟨m, hm, hst⟩ := hst
  rw [updateCounter]
  refine (bind_eq (at?_ok.mpr hrt)).trans ((bind_eq (at?_ok.mpr hm)).trans
    ((bind_eq (at?_ok.mpr hst)).trans ?_))
  rw [dif_pos hz]
  exact (bind_eq hnest).trans (bind_eq (at?_ok.mpr ha))

theorem updateCounter_rest {f : Framework R T D} {mi : Nat} {rt : MachineRuntime T D}
    {st : State} (hrt : f.runtime[mi]? = some rt) (hst : StateOf f mi rt.currentState st)
    (hz : (f.applyCounters mi rt st).1 = false) :
    f.updateCounter mi = .ok ((true, false), (f.applyCounters mi rt st).2) := by
  obtain ⟨m, hm, hst⟩ := hst
  rw [updateCounter]
  refine (bind_eq (at?_ok.mpr hrt)).trans ((bind_eq (at?_ok.mpr hm)).trans
    ((bind_eq (at?_ok.mpr hst)).trans ?_))
  rw [dif_neg (by simp [hz])]
  rfl

/-- The part of a transition that leads into a real state. -/
theorem transition_real {f f1 f2 : Framework R T D} {mi s : Nat} {event : Event}
    {rt rt' after : MachineRuntime T D} {cur st : State} {m : Machine} {below allow moved : Bool}
    (hrt : f.runtime[mi]? = some rt) (hne : rt.currentState ≠ stateEnd)
    (hcur : StateOf f mi rt.currentState cur)
    (hs : (cur.sampleState event f.rng).1 = some s)
    (hreal : s ≠ stateEnd ∧ s ≠ stateSignal) (hst : StateOf f mi s st)
    (hin : f1 = (f.sampleNext mi event cur).arrive mi s rt st rt'.stateLimit)
    (hrt' : f1.runtime[mi]? = some rt') (hm : f1.machines[mi]? = some m)
    (hbelow : f1.belowActionLimits rt' m = .ok below)
    (hcount : f1.updateCounter mi = .ok ((allow, moved), f2))
    (hlen : (allow && below) = true → mi < f2.actions.length)
    (hst2 : StateOf f2 mi s st)
    (hafter : f2.runtime[mi]? = some after) :
    f.transition mi event =
      if rt.currentState = after.currentState ∧ moved = false then
        pure (.unchanged, f2.schedule mi s rt'.stateLimit st (allow && below))
      else pure (.changed, f2.schedule mi s rt'.stateLimit st (allow && below)) := by
  subst hin
  have hm0 : f.machines[mi]? = some m := by
    rw [← hm, (Frame.arrive (f := f.sampleNext mi event cur) hrt).machines]
    rfl
  rw [transition]
  refine (bind_eq (at?_ok.mpr hrt)).trans ?_
  rw [if_neg hne]
  refine (bind_eq (at?_ok.mpr hm0)).trans ((bind_eq (at?_ok.mpr (hcur.machine hm0))).trans ?_)
  simp only [note_rng, hs, if_neg hreal.1, if_neg hreal.2]
  refine (bind_eq (at?_ok.mpr (hst.machine hm0))).trans ?_
  refine (bind_eq (at?_ok.mpr hrt')).trans ((bind_eq hbelow).trans ((bind_eq hcount).trans ?_))
  apply (bind_eq (scheduleIf_of hst2 hlen)).trans
  exact bind_eq (at?_ok.mpr (by rw [schedule_runtime]; exact hafter))

theorem Moves.transition {f f' : Framework R T D} {mi : Nat} {event : Event} {c : StateChange}
    (h : Moves f mi event c f') : f.transition mi event = .ok (c, f') := by
  induction h with
  | ended hrt hend =>
    rw [Framework.transition]
    refine (bind_eq (at?_ok.mpr hrt)).trans ?_
    rw [if_pos hend]
    rfl
  | idle hrt hne hcur hs | stop hrt hne hcur hs | signal hrt hne hcur hs =>
    obtain ⟨m, hm, hcur⟩ := hcur
    rw [Framework.transition]
    refine (bind_eq (at?_ok.mpr hrt)).trans ?_
    rw [if_neg hne]
    refine (bind_eq (at?_ok.mpr hm)).trans ((bind_eq (at?_ok.mpr hcur)).trans ?_)
    simp only [note_rng, hs]
    rfl
  | enter hrt hne hcur hs hreal hst hin hrt' hm hbelow hz hlen =>
    have hframe := Frame.arrived hrt hin
    have hcur' := arrived_current hrt hin hrt'
    obtain ⟨a, b, hafter⟩ := applyCounters_runtime _ hrt'
    rw [transition_real hrt hne hcur hs hreal hst hin hrt' hm hbelow
      (updateCounter_rest hrt' (hcur' ▸ hframe.stateOf.mpr hst) hz) (fun h => hlen (by simpa using h))
      ((hframe.trans (Frame.applyCounters hrt')).stateOf.mpr hst) hafter]
    simp only [hcur', and_true, Bool.true_and]
    split <;> rfl
  | chain hrt hne hcur hs hreal hst hin hrt' hm hbelow hz hnest ha hafter ih =>
    have hframe := Frame.arrived hrt hin
    have hcur' := arrived_current hrt hin hrt'
    rw [transition_real hrt hne hcur hs hreal hst hin hrt' hm hbelow
      (updateCounter_zeroed hrt' (hcur' ▸ hframe.stateOf.mpr hst) hz ih ha)
      (fun _ => (List.getElem?_eq_some_iff.mp ha).1)
      (((hframe.trans (Frame.applyCounters hrt')).trans hnest.frame).stateOf.mpr hst) hafter]
    rename_i change _ _ _
    cases change <;> simp [pure, Except.pure]
    split <;> rfl

theorem transition_ok {f f' : Framework R T D} {mi : Nat} {event : Event} {c : StateChange} :
    f.transition mi event = .ok (c, f') ↔ Moves f mi event c f' :=
  ⟨transition_moves f mi event c f', Moves.transition⟩

end Maybenot.Framework

import Maybenot.Proofs.Log

namespace Maybenot
open Lib

/-- Every target of a machine's transitions is one of its states or a pseudo-state. -/
def Machine.Closed (m : Machine) : Prop :=
  ∀ st ∈ m.states, ∀ i : Fin eventNum, ∀ vector, st.transitions[i] = some vector → ∀ t ∈ vector,
    t.state < m.states.length ∨ t.state = stateEnd ∨ t.state = stateSignal

/-- What comes after a check is reached only if the check does not fail. -/
theorem check_ok {p : Prop} [Decidable p] {text : String} {args : List Arg}
    {k : Unit → Except Error α} {y : Except Error α} {r : α} :
    (if p then fail text args >>= k else y) = .ok r ↔ ¬ p ∧ y = .ok r := by
  by_cases hp : p <;> simp [hp, fail, bind, Except.bind]

theorem forM_ok {f : α → Except ε Unit} {xs : List α} {u : Unit} (h : xs.forM f = .ok u) :
    ∀ x ∈ xs, f x = .ok () := by
  induction xs with
  | nil => simp
  | cons y ys ih =>
    obtain ⟨_, hy, hys⟩ := bind_ok.mp (show (f y >>= fun _ => ys.forM f) = .ok u from h)
    intro x hx
    rcases List.mem_cons.mp hx with rfl | hx
    · exact hy
    · exact ih hys x hx

theorem forM_of {f : α → Except ε Unit} {xs : List α} (h : ∀ x ∈ xs, f x = .ok ()) :
    xs.forM f = .ok () := by
  induction xs with
  | nil => rfl
  | cons y ys ih =>
    have hy := h y List.mem_cons_self
    exact (bind_eq hy).trans (ih fun x hx => h x (List.mem_cons_of_mem _ hx))

theorem State.validateTrans_state {n : Nat} {acc acc' : F32 × List Nat} {t : Trans}
    (h : State.validateTrans n acc t = .ok acc') :
    t.state < n ∨ t.state = stateEnd ∨ t.state = stateSignal := by
  simp only [State.validateTrans, check_ok] at h
  obtain ⟨hstate, _⟩ := h
  by_contra hno
  push Not at hno
  exact hstate ⟨hno.1, hno.2.1, hno.2.2⟩

theorem State.validateEvent_targets {s : State} {n : Nat} {vector : List Trans} {i : Nat} {u : Unit}
    (h : s.validateEvent n (some vector, i) = .ok u) :
    ∀ t ∈ vector, t.state < n ∨ t.state = stateEnd ∨ t.state = stateSignal := by
  simp only [State.validateEvent, check_ok, bind_ok] at h
  obtain ⟨_, acc, hfold, _⟩ := h
  clear * - hfold
  generalize (Flt.ofRat 0, []) = acc0 at hfold
  induction vector generalizing acc0 with
  | nil => simp
  | cons t ts ih =>
    rw [List.foldlM_cons, bind_ok] at hfold
    obtain ⟨acc1, ht, hts⟩ := hfold
    intro x hx
    rcases List.mem_cons.mp hx with rfl | hx
    · exact State.validateTrans_state ht
    · exact ih acc1 hts x hx

theorem Machine.validate_closed {R : Type} [RngCore R] {m : Machine} {u : Unit}
    (h : m.validate R = .ok u) : m.Closed ∧ 0 < m.states.length := by
  simp only [Machine.validate, check_ok] at h
  obtain ⟨_, _, hpos, _, hstates⟩ := h
  refine ⟨fun st hst i vector hv t ht => ?_, Nat.pos_of_ne_zero hpos⟩
  have hs := forM_ok hstates st hst
  split at hs
  · rename_i hvalid
    simp only [State.validate, bind_ok] at hvalid
    obtain ⟨_, hevents, _⟩ := hvalid
    have hmem : (some vector, i.val) ∈ st.transitions.toList.zipIdx := by
      rw [List.mk_mem_zipIdx_iff_getElem?]
      simpa using hv
    exact State.validateEvent_targets (forM_ok hevents _ hmem) t ht
  · exact absurd hs (by simp)

theorem State.firstAbove_mem {r : Rat} {sum : F32} {ts : List Trans} {s : Nat}
    (h : State.firstAbove r sum ts = some s) : ∃ t ∈ ts, t.state = s := by
  induction ts generalizing sum with
  | nil => simp [State.firstAbove] at h
  | cons t ts ih =>
    simp only [State.firstAbove] at h
    split at h
    · exact ⟨t, List.mem_cons_self, Option.some.inj h⟩
    · obtain ⟨t', ht', hs⟩ := ih h
      exact ⟨t', List.mem_cons_of_mem _ ht', hs⟩

theorem Machine.Closed.next {R : Type} [RngCore R] {m : Machine} (hm : m.Closed) {st : State}
    (hst : st ∈ m.states) {event : Event} {rng : R} {s : Nat}
    (h : (st.sampleState event rng).1 = some s) :
    s < m.states.length ∨ s = stateEnd ∨ s = stateSignal := by
  unfold State.sampleState at h
  split at h
  · exact absurd h (by simp)
  · rename_i vector hv
    obtain ⟨t, ht, rfl⟩ := State.firstAbove_mem h
    exact hm st hst _ vector hv t ht

namespace Framework

variable {R T D : Type}

/-- Every machine has its runtime and its place for an action, and is in one of its states
or has stopped. -/
structure WellFormed (f : Framework R T D) : Prop where
  runtime : f.runtime.length = f.machines.length
  actions : f.actions.length = f.machines.length
  closed : ∀ m ∈ f.machines, m.Closed
  states : ∀ (mi : Nat) m rt, f.machines[mi]? = some m → f.runtime[mi]? = some rt →
    rt.currentState = stateEnd ∨ rt.currentState < m.states.length

theorem WellFormed.keep {f g : Framework R T D} (h : WellFormed f) (hs : g.shape = f.shape)
    (hstates : ∀ (mi : Nat) rt', g.runtime[mi]? = some rt' →
      (∃ rt, f.runtime[mi]? = some rt ∧ rt'.currentState = rt.currentState) ∨
        rt'.currentState = stateEnd ∨ ∃ st, StateOf f mi rt'.currentState st) : WellFormed g := by
  obtain ⟨hm, hr, ha⟩ := shape_eq hs
  refine ⟨by rw [hr, hm, h.runtime], by rw [ha, hm, h.actions], hm ▸ h.closed, ?_⟩
  intro mi m rt' hmach hrt'
  rw [hm] at hmach
  rcases hstates mi rt' hrt' with ⟨rt, hrt, he⟩ | hend | ⟨st, hst⟩
  · exact he ▸ h.states mi m rt hmach hrt
  · exact .inl hend
  · exact .inr (List.getElem?_eq_some_iff.mp (hst.machine hmach)).1

variable [RngCore R] [Time.Duration D] [Time.Instant T D]

/-- Where a transition leaves its machine. -/
theorem Moves.state {f f' : Framework R T D} {mi : Nat} {event : Event} {c : StateChange}
    {rt' : MachineRuntime T D} (h : Moves f mi event c f') (hrt' : f'.runtime[mi]? = some rt') :
    (∃ rt, f.runtime[mi]? = some rt ∧ rt'.currentState = rt.currentState) ∨
      rt'.currentState = stateEnd ∨ ∃ st, StateOf f mi rt'.currentState st := by
  induction h with
  | ended _ _ => exact .inl ⟨rt', hrt', rfl⟩
  | idle _ _ _ _ => exact .inl ⟨rt', hrt', rfl⟩
  | stop hrt hne hcur hs =>
    obtain rfl := Option.some.inj ((set_getElem? hrt).symm.trans hrt')
    exact .inr (.inl rfl)
  | signal _ _ _ _ => exact .inl ⟨rt', hrt', rfl⟩
  | enter hrt hne hcur hs hreal hst hin hrt1 hm hbelow hz hlen =>
    obtain ⟨a, b, hab⟩ := applyCounters_runtime _ hrt1
    rw [schedule_runtime, hab] at hrt'
    obtain rfl := Option.some.inj hrt'
    exact .inr (.inr ⟨_, arrived_current hrt hin hrt1 ▸ hst⟩)
  | chain hrt hne hcur hs hreal hst hin hrt1 hm hbelow hz hnest ha hafter ih =>
    obtain ⟨a, b, hab⟩ := applyCounters_runtime _ hrt1
    rw [schedule_runtime] at hrt'
    rcases ih hrt' with ⟨rt2, hrt2, he⟩ | hend | ⟨st, hst'⟩
    · obtain rfl := Option.some.inj (hab.symm.trans hrt2)
      rw [he]
      exact .inr (.inr ⟨_, arrived_current hrt hin hrt1 ▸ hst⟩)
    · exact .inr (.inl hend)
    · replace hst' := (Frame.applyCounters hrt1).stateOf.mp hst'
      exact .inr (.inr ⟨st, (Frame.arrived hrt hin).stateOf.mp hst'⟩)

theorem Moves.wellFormed {f f' : Framework R T D} {mi : Nat} {event : Event} {c : StateChange}
    (h : Moves f mi event c f') (hf : WellFormed f) : WellFormed f' := by
  refine hf.keep h.frame.shape fun j rt' hrt' => ?_
  by_cases hj : j = mi
  · exact hj ▸ h.state (hj ▸ hrt')
  · exact .inl ⟨rt', (h.frame.others j hj).1 ▸ hrt', rfl⟩

omit [RngCore R] in
theorem belowActionLimits_total {f : Framework R T D} {rt : MachineRuntime T D} {m : Machine}
    {st : State} (hst : m.states[rt.currentState]? = some st) :
    ∃ below, f.belowActionLimits rt m = .ok below := by
  simp only [belowActionLimits, Machine.stateAt, at?_ok.mpr hst, ok_bind]
  split <;> exact ⟨_, rfl⟩

omit [Time.Duration D] [Time.Instant T D] in
theorem arrives {f : Framework R T D} {mi : Nat} {rt : MachineRuntime T D}
    (hrt : f.runtime[mi]? = some rt) (event : Event) (cur : State) (s : Nat) (st : State) :
    ∃ f1 rt', f1 = (f.sampleNext mi event cur).arrive mi s rt st rt'.stateLimit ∧
      f1.runtime[mi]? = some rt' := by
  have hframe : Frame mi ((f.sampleNext mi event cur).note (.sampled mi s))
      (Framework.enterState _ mi rt s st) := Frame.enterState hrt
  obtain ⟨rt', hrt'⟩ := exists_getElem? (hframe.runtimeLength ▸
    (List.getElem?_eq_some_iff.mp hrt).1)
  exact ⟨_, rt', rfl, hrt'⟩

omit [Time.Duration D] [Time.Instant T D] in
theorem WellFormed.arrived {f f1 : Framework R T D} (hf : WellFormed f) {mi s limit : Nat}
    {event : Event} {rt rt' : MachineRuntime T D} {cur st : State}
    (hrt : f.runtime[mi]? = some rt)
    (hin : f1 = (f.sampleNext mi event cur).arrive mi s rt st limit)
    (hrt' : f1.runtime[mi]? = some rt') (hst : StateOf f mi s st) :
    WellFormed (f1.applyCounters mi rt' st).2 := by
  have hframe : Frame mi f (f1.applyCounters mi rt' st).2 :=
    (Frame.arrived hrt hin).trans (Frame.applyCounters hrt')
  refine hf.keep hframe.shape fun j rt2 hrt2 => ?_
  by_cases hj : j = mi
  · subst hj
    obtain ⟨a, b, hab⟩ := applyCounters_runtime st hrt'
    obtain rfl := Option.some.inj (hab.symm.trans hrt2)
    exact .inr (.inr ⟨st, arrived_current hrt hin hrt' ▸ hst⟩)
  · exact .inl ⟨rt2, (hframe.others j hj).1 ▸ hrt2, rfl⟩

/-- A transition never fails. -/
theorem moves_total {f : Framework R T D} (hf : WellFormed f) {mi : Nat}
    (hmi : mi < f.machines.length) (event : Event) : ∃ c f', Moves f mi event c f' := by
  generalize hb : f.zeroBudget = budget
  induction budget using Nat.strongRecOn generalizing f event with
  | ind budget ih =>
    obtain ⟨m, hm⟩ := exists_getElem? hmi
    obtain ⟨rt, hrt⟩ := exists_getElem? (hf.runtime ▸ hmi)
    by_cases hend : rt.currentState = stateEnd
    · exact ⟨_, _, .ended hrt hend⟩
    obtain ⟨cur, hcur⟩ := exists_getElem? ((hf.states mi m rt hm hrt).resolve_left hend)
    have hof : StateOf f mi rt.currentState cur := ⟨m, hm, hcur⟩
    cases hs : (cur.sampleState event f.rng).1 with
    | none => exact ⟨_, _, .idle hrt hend hof hs⟩
    | some s =>
      by_cases hnend : s = stateEnd
      · exact ⟨_, _, .stop hrt hend hof (hnend ▸ hs)⟩
      by_cases hnsig : s = stateSignal
      · exact ⟨_, _, .signal hrt hend hof (hnsig ▸ hs)⟩
      have hreal := (hf.closed m (List.mem_of_getElem? hm)).next (List.mem_of_getElem? hcur) hs
      obtain ⟨st, hst⟩ := exists_getElem? (hreal.resolve_right (by simp [hnend, hnsig]))
      obtain ⟨f1, rt', hin, hrt'⟩ := arrives hrt event cur s st
      have hframe := Frame.arrived hrt hin
      have hcur' := arrived_current hrt hin hrt'
      have hm1 : f1.machines[mi]? = some m := hframe.machines ▸ hm
      obtain ⟨below, hbelow⟩ := belowActionLimits_total (f := f1) (hcur' ▸ hst)
      cases hz : (f1.applyCounters mi rt' st).1 with
      | false =>
        exact ⟨_, _, .enter hrt hend hof hs ⟨hnend, hnsig⟩ ⟨m, hm, hst⟩ hin hrt' hm1 hbelow hz
          fun _ => hframe.actionsLength ▸ hf.actions ▸ hmi⟩
      | true =>
        have hframe2 : Frame mi f (f1.applyCounters mi rt' st).2 :=
          hframe.trans (Frame.applyCounters hrt')
        have hwf := hf.arrived hrt hin hrt' ⟨m, hm, hst⟩
        have hbudget : f1.zeroBudget = budget := by
          rw [hin, zeroBudget_arrive, ← hb]
          rfl
        obtain ⟨change, f2, hnest⟩ := ih _ (hbudget ▸ zeroBudget_applyCounters hz) hwf
          (hframe2.machines ▸ hmi) .counterZero rfl
        have hwf2 := hnest.wellFormed hwf
        have hmi2 : mi < f2.machines.length := by
          rw [hnest.frame.machines, hframe2.machines]
          exact hmi
        obtain ⟨a, ha⟩ := exists_getElem? (hwf2.actions ▸ hmi2)
        obtain ⟨after, hafter⟩ := exists_getElem? (hwf2.runtime ▸ hmi2)
        exact ⟨_, _, .chain hrt hend hof hs ⟨hnend, hnsig⟩ ⟨m, hm, hst⟩ hin hrt' hm1 hbelow hz hnest
          ha hafter⟩

omit [RngCore R] [Time.Duration D] [Time.Instant T D] in
/-- A new runtime in the state of the old one. -/
theorem WellFormed.setRuntime {f : Framework R T D} (hf : WellFormed f) {mi : Nat}
    {rt rt' : MachineRuntime T D} (hrt : f.runtime[mi]? = some rt)
    (hstate : rt'.currentState = rt.currentState) : WellFormed (f.setRuntime mi rt') := by
  refine hf.keep (Apart.setRuntime mi f rt').shape fun j rt2 hrt2 => .inl ?_
  by_cases hj : j = mi
  · subst hj
    obtain rfl := Option.some.inj ((set_getElem? hrt).symm.trans hrt2)
    exact ⟨rt, hrt, hstate⟩
  · exact ⟨rt2, ((Apart.setRuntime mi f rt').others j hj).1 ▸ hrt2, rfl⟩

omit [RngCore R] [Time.Instant T D] in
theorem recorded_state (rt : MachineRuntime T D) (e : TriggerEvent) (blocked : D) :
    (rt.recorded e blocked).currentState = rt.currentState := by
  cases e with
  | blockingEnd =>
    simp only [MachineRuntime.recorded]
    split <;> rfl
  | _ => rfl

/-- A machine's turn never fails. -/
theorem turn_total {f : Framework R T D} (hf : WellFormed f) {mi : Nat}
    (hmi : mi < f.machines.length) (e : TriggerEvent) (blocked : D) :
    ∃ f', Turn e blocked f mi f' ∧ WellFormed f' := by
  cases hc : e.concerns mi with
  | false => exact ⟨f, .apart hc, hf⟩
  | true =>
    obtain ⟨rt, hrt⟩ := exists_getElem? (hf.runtime ▸ hmi)
    have hwf := hf.setRuntime hrt (recorded_state rt e blocked)
    obtain ⟨c, g, hm⟩ := moves_total hwf hmi e.event
    have hg := hm.wellFormed hwf
    have hmg : mi < g.machines.length := hm.frame.machines ▸ hmi
    obtain ⟨rt', hrt'⟩ := exists_getElem? (hg.runtime ▸ hmg)
    by_cases hkeep : e.limits mi = true ∧ c = .unchanged ∧ rt'.currentState ≠ stateEnd
    · obtain ⟨hl, rfl, hne⟩ := hkeep
      obtain ⟨m, hmach⟩ := exists_getElem? hmg
      obtain ⟨st, hst⟩ := exists_getElem? ((hg.states mi m rt' hmach hrt').resolve_left hne)
      have hdec : WellFormed (g.decremented mi rt') := hg.setRuntime hrt' rfl
      cases hu : usedUp st (rt'.stateLimit - 1) with
      | false => exact ⟨_, .used hc hrt hl hm hrt' hne ⟨m, hmach, hst⟩ hu, hdec⟩
      | true =>
        have hcl : WellFormed (g.cleared mi rt') :=
          hdec.keep (Apart.setActions mi _ none).shape fun j rt2 hrt2 => .inl ⟨rt2, hrt2, rfl⟩
        obtain ⟨c', f', hm'⟩ := moves_total hcl hmg .limitReached
        exact ⟨f', .reached hc hrt hl hm hrt' hne ⟨m, hmach, hst⟩ hu (hg.actions ▸ hmg) hm',
          hm'.wellFormed hcl⟩
    · exact ⟨g, .moved hc hrt hm hrt' fun hl hu => hkeep ⟨hl, hu⟩, hg⟩

omit [RngCore R] in
theorem WellFormed.recorded {f : Framework R T D} (hf : WellFormed f) (e : TriggerEvent) :
    WellFormed (f.recorded e) :=
  hf.keep (recorded_shape f e) fun _ rt hrt => .inl ⟨rt, recorded_runtime f e ▸ hrt, rfl⟩

theorem processEvent_total {f : Framework R T D} (hf : WellFormed f) (e : TriggerEvent) :
    ∃ f', f.processEvent e = .ok f' ∧ WellFormed f' := by
  rw [processEvent_eq]
  have hn : (f.recorded e).runtime.length = f.machines.length := by
    rw [recorded_runtime, hf.runtime]
  have hturns : ∃ g, (f.recorded e).eachMachine (turn e f.blockedFor) = .ok g ∧
      (WellFormed g ∧ g.shape = f.shape) := by
    refine foldlM_total (fun g mi hmi hg => ?_) ⟨hf.recorded e, recorded_shape f e⟩
    obtain ⟨hg, hs⟩ := hg
    have hmg : mi < g.machines.length := by
      rw [(shape_eq hs).1, ← hn]
      exact List.mem_range.mp hmi
    obtain ⟨g', ht, hg'⟩ := turn_total hg hmg e f.blockedFor
    exact ⟨g', ht.turn, hg', ht.apart_of.shape.trans hs⟩
  obtain ⟨f', h, hwf, _⟩ := hturns
  exact ⟨f', h, hwf⟩

omit [RngCore R] [Time.Duration D] [Time.Instant T D] in
theorem WellFormed.taken {f : Framework R T D} (hf : WellFormed f) : WellFormed f.taken :=
  hf.keep rfl fun _ rt hrt => .inl ⟨rt, hrt, rfl⟩

theorem transitionOnly_total {f : Framework R T D} (hf : WellFormed f) {mi : Nat}
    (hmi : mi < f.machines.length) (event : Event) :
    ∃ f', transitionOnly event f mi = .ok f' ∧ WellFormed f' ∧ f'.shape = f.shape := by
  obtain ⟨c, f', hm⟩ := moves_total hf hmi event
  exact ⟨f', bind_eq hm.transition, hm.wellFormed hf, hm.frame.shape⟩

theorem signalAll_total {f : Framework R T D} (hf : WellFormed f) (excluded : Option Nat) :
    ∃ f', f.signalAll excluded = .ok f' ∧ WellFormed f' ∧ f'.shape = f.shape := by
  refine foldlM_total (P := fun g => WellFormed g ∧ g.shape = f.shape) (fun g mi hmi hg => ?_)
    ⟨hf, rfl⟩
  split
  · exact ⟨g, rfl, hg⟩
  · have hmg : mi < g.machines.length := by
      rw [(shape_eq hg.2).1, ← hf.runtime]
      exact List.mem_range.mp hmi
    obtain ⟨g', h, hwf, hs⟩ := transitionOnly_total hg.1 hmg .signal
    exact ⟨g', h, hwf, hs.trans hg.2⟩

/-- The machine a pending signal leaves out exists. -/
def Sent (f : Framework R T D) : Prop :=
  ∀ x, f.signalPending = some (.allExcept x) → x < f.machines.length

omit [RngCore R] [Time.Duration D] [Time.Instant T D] in
theorem Emits.sent {f f' : Framework R T D} {w : List Step} {who : Nat → Prop} {n : Nat → Nat}
    (h : Emits f f' w who n) (hs : Sent f) (hm : f'.machines = f.machines)
    (hwho : ∀ x, who x → x < f.machines.length) : Sent f' := by
  intro x hx
  rw [h.pending] at hx
  rw [hm]
  rcases raiseAll_except hx with hp | hmem
  · exact hs x hp
  · exact hwho x (h.senders_who x hmem)

theorem deliverSignal_total {f : Framework R T D} (hf : WellFormed f) (hs : Sent f) :
    ∃ f', f.deliverSignal = .ok f' ∧ WellFormed f' ∧ Sent f' := by
  have hnone (g : Framework R T D) : Sent g.taken := fun x hx => absurd hx (by simp [taken])
  unfold deliverSignal
  match hp : f.signalPending with
  | none => exact ⟨f, rfl, hf, hs⟩
  | some .all =>
    obtain ⟨g, hg, hwf, _⟩ := signalAll_total hf.taken none
    exact ⟨g.taken, bind_eq hg, hwf.taken, hnone g⟩
  | some (.allExcept x) =>
    obtain ⟨g, hg, hwf, hshape⟩ := signalAll_total hf.taken (some x)
    have hx : x < g.taken.machines.length := by
      rw [show g.taken.machines = f.machines from (shape_eq hshape).1]
      exact hs x hp
    cases hgp : g.signalPending with
    | none =>
      refine ⟨g.taken, (bind_eq hg).trans ?_, hwf.taken, hnone g⟩
      rw [hgp]
      rfl
    | some again =>
      obtain ⟨c, f', hm⟩ := moves_total hwf.taken hx .signal
      obtain ⟨w, hw⟩ := hm.emits
      refine ⟨f', (bind_eq hg).trans ?_, hm.wellFormed hwf.taken,
        hw.sent (hnone g) hm.frame.machines fun y hy => hy ▸ hx⟩
      rw [hgp]
      exact bind_eq hm.transition

theorem processEvents_total {f : Framework R T D} (hf : WellFormed f) (hs : Sent f)
    (events : List TriggerEvent) :
    ∃ f', f.processEvents events = .ok f' ∧ WellFormed f' ∧ Sent f' := by
  obtain ⟨f', h, hwf⟩ := foldlM_total (P := WellFormed)
    (fun g e (_ : e ∈ events) hg => processEvent_total hg e) hf
  obtain ⟨w, hw⟩ := processEvents_emits h
  exact ⟨f', h, hwf, hw.sent hs (shape_eq (processEvents_shape h)).1 fun x hx => hf.runtime ▸ hx⟩

/-- A call never fails. -/
theorem triggerEvents_total {f : Framework R T D} (hf : WellFormed f) (hs : Sent f)
    (events : List TriggerEvent) (now : T) :
    ∃ actions f', f.triggerEvents events now = .ok (actions, f') ∧ WellFormed f' ∧ Sent f' := by
  have hstart : WellFormed (f.startCall now) :=
    hf.keep (by simp [startCall, shape]) fun _ rt hrt => .inl ⟨rt, hrt, rfl⟩
  obtain ⟨f1, h1, hwf1, hs1⟩ := processEvents_total hstart hs events
  obtain ⟨f', h', hwf', hs'⟩ := deliverSignal_total hwf1 hs1
  exact ⟨_, f', (bind_eq h1).trans (bind_eq h'), hwf', hs'⟩

theorem run_total {f : Framework R T D} (hf : WellFormed f) (hs : Sent f)
    (calls : List (List TriggerEvent × T)) : ∃ actions f', f.run calls = .ok (actions, f') := by
  induction calls generalizing f with
  | nil => exact ⟨_, _, rfl⟩
  | cons c cs ih =>
    obtain ⟨actions, g, hc, hwf, hs⟩ := triggerEvents_total hf hs c.1 c.2
    obtain ⟨rest, f', hr⟩ := ih hwf hs
    exact ⟨_, f', (bind_eq hc).trans (bind_eq hr)⟩

omit [Time.Duration D] [Time.Instant T D] in
/-- The sampling of the first limits touches nothing but the limits. -/
theorem startLimit_map {started : List (MachineRuntime T D × Machine)}
    {acc acc' : List (MachineRuntime T D) × R} (h : started.foldlM startLimit acc = .ok acc')
    {g : MachineRuntime T D → β} (hg : ∀ rt n, g { rt with stateLimit := n } = g rt) :
    acc'.1.map g = acc.1.map g ++ started.map fun p => g p.1 := by
  induction started generalizing acc with
  | nil =>
    obtain rfl : acc = acc' := by simpa using h
    simp
  | cons p ps ih =>
    rw [List.foldlM_cons, bind_ok] at h
    obtain ⟨acc1, hp, hps⟩ := h
    rw [ih hps]
    simp only [startLimit, bind_ok] at hp
    obtain ⟨st, _, hp⟩ := hp
    split at hp
    · obtain rfl := pure_ok.mp hp
      simp
    · obtain rfl := pure_ok.mp hp
      simp [hg]

omit [Time.Duration D] [Time.Instant T D] in
theorem startLimit_total {started : List (MachineRuntime T D × Machine)}
    {s : List (MachineRuntime T D) × R} (h : ∀ p ∈ started, 0 < p.2.states.length) :
    ∃ s', started.foldlM startLimit s = .ok s' := by
  have htotal : ∃ s', started.foldlM startLimit s = .ok s' ∧ True := by
    refine foldlM_total (P := fun _ => True) (fun acc p hp _ => ?_) trivial
    obtain ⟨st, hst⟩ := exists_getElem? (h p hp)
    simp only [startLimit, Machine.stateAt, at?_ok.mpr hst, ok_bind]
    split <;> exact ⟨_, rfl, trivial⟩
  exact htotal.imp fun _ h => h.1

/-- The framework that `new` makes once its inputs are validated. -/
def fresh (machines : List Machine) (padding blocking : F64) (now : T)
    (started : List (MachineRuntime T D) × R) : Framework R T D where
  currentTime := now
  rng := started.2
  actions := List.replicate machines.length none
  machines := machines
  runtime := started.1
  maxPaddingFrac := padding
  normalSentPackets := 0
  paddingSentPackets := 0
  maxBlockingFrac := blocking
  blockingDuration := Time.Duration.zero
  blockingStarted := now
  blockingActive := false
  signalPending := none
  counterZeroedOnce := (false, false)
  frameworkStart := now
  log := []

omit [Time.Instant T D] in
theorem new_ok {machines : List Machine} {padding blocking : F64} {now : T} {rng : R}
    {f : Framework R T D} :
    Framework.new machines padding blocking now rng = .ok (.ok f) ↔
      isFraction padding = true ∧ isFraction blocking = true ∧
        (∀ m ∈ machines, m.validate R = .ok ()) ∧
        ∃ started, ((machines.map (startRuntime now)).zip machines).foldlM startLimit ([], rng) =
          .ok started ∧ f = fresh machines padding blocking now started := by
  unfold Framework.new
  cases hp : isFraction padding with
  | false => simp
  | true =>
    cases hb : isFraction blocking with
    | false => simp
    | true =>
      simp only [not_true, if_false, true_and]
      cases hv : machines.forM (Machine.validate R) with
      | error e =>
        simp only [pure_ok, reduceCtorEq, false_iff, not_and]
        intro hall
        rw [forM_of hall] at hv
        exact absurd hv (by simp)
      | ok u =>
        simp only [bind_ok, pure_ok, Except.ok.injEq]
        constructor
        · rintro ⟨started, h, rfl⟩
          exact ⟨forM_ok hv, started, h, rfl⟩
        · rintro ⟨_, started, h, rfl⟩
          exact ⟨started, h, rfl⟩

omit [Time.Instant T D] in
theorem new_total {machines : List Machine} {padding blocking : F64}
    (hp : isFraction padding = true) (hb : isFraction blocking = true)
    (hv : ∀ m ∈ machines, m.validate R = .ok ()) (now : T) (rng : R) :
    ∃ f : Framework R T D, Framework.new machines padding blocking now rng = .ok (.ok f) := by
  have hpos : ∀ p ∈ ((machines.map (startRuntime (D := D) now)).zip machines),
      0 < p.2.states.length := fun p hpm =>
    (Machine.validate_closed (hv p.2 (List.of_mem_zip hpm).2)).2
  obtain ⟨started, h⟩ := startLimit_total (s := ([], rng)) hpos
  exact ⟨_, new_ok.mpr ⟨hp, hb, hv, started, h, rfl⟩⟩

omit [Time.Instant T D] in
theorem new_refused {padding blocking : F64}
    (hno : ¬ (isFraction padding = true ∧ isFraction blocking = true)) (machines : List Machine)
    (now : T) (rng : R) :
    ∃ e, Framework.new (T := T) (D := D) machines padding blocking now rng = .ok (.error e) := by
  unfold Framework.new
  cases hp : isFraction padding with
  | false => exact ⟨_, rfl⟩
  | true =>
    cases hb : isFraction blocking with
    | false => exact ⟨_, rfl⟩
    | true => exact absurd ⟨hp, hb⟩ hno

omit [Time.Instant T D] in
theorem new_wellFormed {machines : List Machine} {padding blocking : F64} {now : T} {rng : R}
    {f : Framework R T D}
    (h : Framework.new machines padding blocking now rng = .ok (.ok f)) :
    WellFormed f ∧ Sent f ∧ f.machines = machines := by
  obtain ⟨_, _, hv, started, hs, rfl⟩ := new_ok.mp h
  have hclosed := fun m hm => Machine.validate_closed (hv m hm)
  have hstates := startLimit_map hs (g := (·.currentState)) fun _ _ => rfl
  have hzero : ∀ n ∈ started.1.map (·.currentState), n = 0 := by
    intro n hn
    rw [hstates, List.map_nil, List.nil_append] at hn
    obtain ⟨p, hp, rfl⟩ := List.mem_map.mp hn
    obtain ⟨m, _, hm⟩ := List.mem_map.mp (List.of_mem_zip hp).1
    rw [← hm]
    rfl
  have hlen : started.1.length = machines.length := by
    simpa using congrArg List.length hstates
  refine ⟨⟨hlen, by simp [fresh], fun m hm => (hclosed m hm).1, ?_⟩, ?_, rfl⟩
  · intro mi m rt hm hrt
    have h0 := hzero rt.currentState (List.mem_map_of_mem (List.mem_of_getElem? hrt))
    exact .inr (h0 ▸ (hclosed m (List.mem_of_getElem? hm)).2)
  · intro x hx
    exact absurd hx (by simp [fresh])

omit [Time.Instant T D] in
/-- The accounting that every machine starts with. -/
theorem new_accounting {machines : List Machine} {padding blocking : F64} {now : T} {rng : R}
    {f : Framework R T D}
    (h : Framework.new machines padding blocking now rng = .ok (.ok f)) :
    f.runtime.map accounting = machines.map fun m =>
      (0, 0, Time.Duration.zero, now, Time.Duration.fromMicros m.allowedBlockedMicrosec) := by
  obtain ⟨_, _, _, started, hs, rfl⟩ := new_ok.mp h
  have hmap := startLimit_map hs (g := accounting) fun _ _ => rfl
  have hfst : ((machines.map (startRuntime now)).zip machines).map (fun p => accounting p.1) =
      (machines.map (startRuntime (D := D) now)).map accounting := by
    rw [← Function.comp_def accounting Prod.fst, ← List.map_map, List.map_fst_zip (by simp)]
  apply hmap.trans
  rw [List.map_nil, List.nil_append, hfst, List.map_map]
  rfl

end Framework

end Maybenot

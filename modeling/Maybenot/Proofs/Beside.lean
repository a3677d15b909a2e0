import Maybenot.Proofs.Total

namespace Maybenot
open Lib

def Action.dists : Action → List Dist
  | .cancel _ => []
  | .sendPadding _ _ timeout limit => timeout :: limit.toList
  | .blockOutgoing _ _ timeout duration limit => timeout :: duration :: limit.toList
  | .updateTimer _ duration limit => duration :: limit.toList

def Counter.dists (c : Counter) : List Dist := c.dist.toList

/-- All distributions that a state samples from. -/
def State.dists (st : State) : List Dist :=
  st.action.toList.flatMap Action.dists ++ st.counter.1.toList.flatMap Counter.dists ++
    st.counter.2.toList.flatMap Counter.dists

/-- A machine whose sampling leaves nothing to chance and that does not signal. -/
structure Machine.Deterministic (R : Type) [RngCore R] (m : Machine) : Prop where
  targets : ∀ st ∈ m.states, ∀ (i : Fin eventNum) vector, st.transitions.get i = some vector →
    ∃ t, vector = [t] ∧ t.prob.val = .fin 1 ∧ t.state ≠ stateSignal
  dists : ∀ st ∈ m.states, ∀ d ∈ st.dists, d.Constant R

section Sampling

variable {R : Type} [RngCore R]

theorem Dist.Constant.eq {d : Dist} (h : d.Constant R) (r r' : R) :
    (d.sample r).1 = (d.sample r').1 := by
  obtain ⟨v, hv⟩ := h
  rw [hv, hv]

theorem sampleCapped_eq {d : Dist} (h : d.Constant R) (cap : F64) (r r' : R) :
    (sampleCapped d cap r).1 = (sampleCapped d cap r').1 := by
  simp only [sampleCapped, h.eq r r']

theorem Action.sampleLimit_eq {a : Action} (h : ∀ d ∈ a.dists, d.Constant R) (r r' : R) :
    (a.sampleLimit r).1 = (a.sampleLimit r').1 := by
  unfold sampleLimit
  cases hl : a.limit with
  | none => rfl
  | some limit =>
    have hlimit : limit ∈ a.dists := by
      cases a <;> simp_all [Action.limit, Action.dists]
    simp only [(h limit hlimit).eq r r']

theorem Action.sampleTimeout_eq {a : Action} (h : ∀ d ∈ a.dists, d.Constant R) (r r' : R) :
    (a.sampleTimeout r).1 = (a.sampleTimeout r').1 := by
  cases a with
  | sendPadding b p timeout limit | blockOutgoing b p timeout duration limit =>
    exact sampleCapped_eq (h timeout List.mem_cons_self) _ r r'
  | _ => rfl

theorem Action.sampleDuration_eq {a : Action} (h : ∀ d ∈ a.dists, d.Constant R) (r r' : R) :
    (a.sampleDuration r).1 = (a.sampleDuration r').1 := by
  cases a with
  | blockOutgoing b p timeout duration limit =>
    exact sampleCapped_eq (h duration (by simp [Action.dists])) _ r r'
  | updateTimer p duration limit =>
    exact sampleCapped_eq (h duration List.mem_cons_self) _ r r'
  | _ => rfl

theorem Counter.sampleValue_eq {c : Counter} (h : ∀ d ∈ c.dists, d.Constant R) (r r' : R) :
    (c.sampleValue r).1 = (c.sampleValue r').1 := by
  unfold sampleValue
  cases hd : c.dist with
  | none => rfl
  | some d => simp only [(h d (by simp [Counter.dists, hd])).eq r r']

theorem firstAbove_certain {r : Rat} (hr : r < 1) {t : Trans} (ht : t.prob.val = .fin 1) :
    State.firstAbove r (Flt.ofRat 0) [t] = some t.state := by
  have hzero : (Flt.ofRat 0 : F32).val = .fin 0 := by decide +kernel
  have hone : (Flt.round (.fin (0 + 1)) : F32).val = .fin 1 := by decide +kernel
  simp only [State.firstAbove, Flt.add, hzero, ht, Val.add, hone, Val.lt, hr, decide_true, if_true]

/-- The next state of a deterministic machine, which is no signal. -/
theorem Machine.Deterministic.next {m : Machine} (h : m.Deterministic R) {st : State}
    (hst : st ∈ m.states) (event : Event) (r r' : R) :
    (st.sampleState event r).1 = (st.sampleState event r').1 ∧
      (st.sampleState event r).1 ≠ some stateSignal := by
  unfold State.sampleState
  cases hv : st.transitions[event.toUsize] with
  | none => simp
  | some vector =>
    obtain ⟨t, rfl, hprob, hstate⟩ := h.targets st hst _ vector hv
    have hone (r : R) : State.firstAbove (RngCore.genUnit r).1 (Flt.ofRat 0) [t] = some t.state :=
      firstAbove_certain (RngCore.genUnit r).1.2.2 hprob
    simp only [hone]
    simp [hstate]

end Sampling

def TriggerAction.withMachine (mi : Nat) : TriggerAction D → TriggerAction D
  | .cancel _ timer => .cancel mi timer
  | .sendPadding timeout bypass replace _ => .sendPadding timeout bypass replace mi
  | .blockOutgoing timeout duration bypass replace _ =>
    .blockOutgoing timeout duration bypass replace mi
  | .updateTimer duration replace _ => .updateTimer duration replace mi

def TriggerEvent.rename (ρ : Nat → Nat) : TriggerEvent → TriggerEvent
  | .paddingSent machine => .paddingSent (ρ machine)
  | .blockingBegin machine => .blockingBegin (ρ machine)
  | .timerBegin machine => .timerBegin (ρ machine)
  | .timerEnd machine => .timerEnd (ρ machine)
  | e => e

namespace Framework

variable {R T D : Type}

/-- What all machines of a framework share and no transition changes. -/
def shared (f : Framework R T D) :=
  (f.currentTime, f.maxPaddingFrac, f.normalSentPackets, f.paddingSentPackets,
    f.maxBlockingFrac, f.blockingDuration, f.blockingStarted, f.blockingActive, f.frameworkStart)

/-- The flags of zeroed counters that either of two runs has set. -/
def orFlags (a b : Bool × Bool) : Bool × Bool := (a.1 || b.1, a.2 || b.2)

/-- No flag is set in both runs. -/
def ApartFlags (a b : Bool × Bool) : Prop := (a.1 && b.1) = false ∧ (a.2 && b.2) = false

def LeFlags (a b : Bool × Bool) : Prop := (a.1 = true → b.1 = true) ∧ (a.2 = true → b.2 = true)

theorem ApartFlags.le {a b o : Bool × Bool} (h : ApartFlags b o) (hle : LeFlags a b) :
    ApartFlags a o := by
  simp only [ApartFlags, LeFlags, Bool.and_eq_false_iff] at *
  grind

theorem LeFlags.trans {a b c : Bool × Bool} (h : LeFlags a b) (h' : LeFlags b c) : LeFlags a c :=
  ⟨fun ha => h'.1 (h.1 ha), fun ha => h'.2 (h.2 ha)⟩

/-- Machine `i` of `f` is in the same state as the only machine of `g`. The flags of `f`
are those of `g` and those that other machines have set. -/
structure Beside (i : Nat) (o : Bool × Bool) (f g : Framework R T D) : Prop where
  machines : g.machines[0]? = f.machines[i]?
  runtime : g.runtime[0]? = f.runtime[i]?
  actions : g.actions[0]? = f.actions[i]?.map (·.map (·.withMachine 0))
  shared : g.shared = f.shared
  quiet : f.signalPending = none ∧ g.signalPending = none
  flags : f.counterZeroedOnce = orFlags g.counterZeroedOnce o

namespace Beside

variable {i : Nat} {o : Bool × Bool} {f g : Framework R T D}

theorem note (h : Beside i o f g) (s s' : Step) : Beside i o (f.note s) (g.note s') :=
  ⟨h.machines, h.runtime, h.actions, h.shared, h.quiet, h.flags⟩

theorem stateOf (h : Beside i o f g) {s : Nat} {st : State} :
    StateOf g 0 s st ↔ StateOf f i s st := by
  unfold StateOf
  rw [h.machines]

theorem setRuntime (h : Beside i o f g) {rt : MachineRuntime T D} (hrt : f.runtime[i]? = some rt)
    (rt' : MachineRuntime T D) : Beside i o (f.setRuntime i rt') (g.setRuntime 0 rt') :=
  ⟨h.machines, (set_getElem? (h.runtime.trans hrt)).trans (set_getElem? hrt).symm, h.actions,
    h.shared, h.quiet, h.flags⟩

theorem setActions (h : Beside i o f g) (a : Option (TriggerAction D)) :
    Beside i o { f with actions := f.actions.set i a }
      { g with actions := g.actions.set 0 (a.map (·.withMachine 0)) } := by
  refine ⟨h.machines, h.runtime, ?_, h.shared, h.quiet, h.flags⟩
  simp only [List.getElem?_set_self', h.actions]
  cases f.actions[i]? <;> rfl

/-- The places of the actions exist together. -/
theorem slot (h : Beside i o f g) {b : Option (TriggerAction D)} (hb : g.actions[0]? = some b) :
    ∃ a, f.actions[i]? = some a ∧ b = a.map (·.withMachine 0) := by
  rw [h.actions] at hb
  obtain ⟨a, ha, rfl⟩ := Option.map_eq_some_iff.mp hb
  exact ⟨a, ha, rfl⟩

theorem setRng (h : Beside i o f g) (r r' : R) :
    Beside i o { f with rng := r } { g with rng := r' } :=
  ⟨h.machines, h.runtime, h.actions, h.shared, h.quiet, h.flags⟩

variable [RngCore R]

theorem sampleNext (h : Beside i o f g) (event : Event) (st : State) :
    Beside i o (f.sampleNext i event st) (g.sampleNext 0 event st) :=
  (h.note _ _).setRng _ _

theorem enterState (h : Beside i o f g) {s : Nat} {rt : MachineRuntime T D} {st : State}
    (hst : ∀ d ∈ st.dists, d.Constant R) (hrt : f.runtime[i]? = some rt) :
    Beside i o (f.enterState i rt s st) (g.enterState 0 rt s st) := by
  unfold Framework.enterState
  split
  · exact h
  · cases ha : st.action with
    | none => exact h.setRuntime hrt _
    | some a =>
      have hlimit := Action.sampleLimit_eq (a := a)
        (fun d hd => hst d (by simp [State.dists, ha, hd])) f.rng g.rng
      simp only [hlimit]
      exact (h.setRng (a.sampleLimit f.rng).2 (a.sampleLimit g.rng).2).setRuntime hrt _

theorem arrive (h : Beside i o f g) {s limit : Nat} {rt : MachineRuntime T D} {st : State}
    (hst : ∀ d ∈ st.dists, d.Constant R) (hrt : f.runtime[i]? = some rt) :
    Beside i o (f.arrive i s rt st limit) (g.arrive 0 s rt st limit) :=
  ((h.note _ _).enterState hst hrt).note _ _

omit [RngCore R] in
theorem counterChange_eq [RngCore R] {c : Option Counter}
    (hc : ∀ d ∈ c.toList.flatMap Counter.dists, d.Constant R) (other value : Nat)
    {once seen : Bool} {r r' : R}
    (hseen : ((once || (counterChange c other value once r').2.1) && seen) = false) :
    (counterChange c other value (once || seen) r).1 = (counterChange c other value once r').1 ∧
      (counterChange c other value (once || seen) r).2.1 =
        (counterChange c other value once r').2.1 := by
  cases c with
  | none => exact ⟨rfl, rfl⟩
  | some c =>
    have hchange : (if c.copy then (other, r) else c.sampleValue r).1 =
        (if c.copy then (other, r') else c.sampleValue r').1 := by
      split
      · rfl
      · exact Counter.sampleValue_eq (fun d hd => hc d (by simpa using hd)) r r'
    simp only [counterChange, hchange] at hseen ⊢
    refine ⟨trivial, ?_⟩
    cases seen with
    | false => simp
    | true =>
      obtain ⟨honce, hzero⟩ := Bool.or_eq_false_iff.mp ((Bool.and_true _).symm.trans hseen)
      rw [honce] at hzero ⊢
      simpa using hzero

/-- A counter that only the other machines' flags could keep from being zeroed is not
zeroed at all. -/
theorem applyCounters (h : Beside i o f g) {rt : MachineRuntime T D} {st : State}
    (hst : ∀ d ∈ st.dists, d.Constant R) (hrt : f.runtime[i]? = some rt)
    (hapart : ApartFlags (g.applyCounters 0 rt st).2.counterZeroedOnce o) :
    (f.applyCounters i rt st).1 = (g.applyCounters 0 rt st).1 ∧
      Beside i o (f.applyCounters i rt st).2 (g.applyCounters 0 rt st).2 := by
  have hfirst : f.counterZeroedOnce.1 = (g.counterZeroedOnce.1 || o.1) := by rw [h.flags]; rfl
  have hsecond : f.counterZeroedOnce.2 = (g.counterZeroedOnce.2 || o.2) := by rw [h.flags]; rfl
  let first (once : Bool) (r : R) := counterChange st.counter.1 rt.counterB rt.counterA once r
  let second (once : Bool) (r : R) := counterChange st.counter.2 rt.counterA rt.counterB once r
  have hA : (first f.counterZeroedOnce.1 f.rng).1 = (first g.counterZeroedOnce.1 g.rng).1 ∧
      (first f.counterZeroedOnce.1 f.rng).2.1 = (first g.counterZeroedOnce.1 g.rng).2.1 := by
    rw [hfirst]
    exact counterChange_eq (fun d hd => hst d (by
      simp only [State.dists, List.mem_append]; exact .inl (.inr hd))) _ _ hapart.1
  have hB (r : R) : (second f.counterZeroedOnce.2 r).1 =
      (second g.counterZeroedOnce.2 (first g.counterZeroedOnce.1 g.rng).2.2).1 ∧
      (second f.counterZeroedOnce.2 r).2.1 =
        (second g.counterZeroedOnce.2 (first g.counterZeroedOnce.1 g.rng).2.2).2.1 := by
    rw [hsecond]
    exact counterChange_eq (fun d hd => hst d (by
      simp only [State.dists, List.mem_append]; exact .inr hd)) _ _ hapart.2
  have hB := hB (first f.counterZeroedOnce.1 f.rng).2.2
  refine ⟨congrArg₂ or hA.2 hB.2, h.machines, ?_, h.actions, h.shared, h.quiet, ?_⟩
  · have hset := h.setRuntime hrt { rt with
      counterA := (first f.counterZeroedOnce.1 f.rng).1
      counterB := (second f.counterZeroedOnce.2 (first f.counterZeroedOnce.1 f.rng).2.2).1 }
    refine Eq.trans ?_ hset.runtime
    rw [hA.1, hB.1]
    rfl
  · refine Prod.ext ?_ ?_
    · apply (congrArg₂ or hfirst hA.2).trans
      exact Bool.or_right_comm _ _ _
    · apply (congrArg₂ or hsecond hB.2).trans
      exact Bool.or_right_comm _ _ _

end Beside

variable [RngCore R] [Time.Duration D] [Time.Instant T D]

omit [Time.Instant T D] in
/-- An action comes out the same for every machine but for whom it is. -/
theorem triggerAction_eq {a : Action} (ha : ∀ d ∈ a.dists, d.Constant R) (i : Nat) (r r' : R) :
    (triggerAction (D := D) 0 a r').1 = (triggerAction i a r).1.withMachine 0 := by
  have htimeout (x y : R) := Action.sampleTimeout_eq ha x y
  have hduration (x y : R) := Action.sampleDuration_eq ha x y
  cases a with
  | cancel timer => rfl
  | sendPadding b p t l => simp only [triggerAction, htimeout r' r, TriggerAction.withMachine]
  | blockOutgoing b p t d l =>
    simp only [triggerAction, htimeout r' r, TriggerAction.withMachine]
    rw [hduration]
  | updateTimer p d l => simp only [triggerAction, hduration r' r, TriggerAction.withMachine]

omit [RngCore R] in
theorem belowActionLimits_eq {f g : Framework R T D} (h : g.shared = f.shared)
    (rt : MachineRuntime T D) (m : Machine) :
    f.belowActionLimits rt m = g.belowActionLimits rt m := by
  simp only [shared, Prod.mk.injEq] at h
  obtain ⟨h1, h2, h3, h4, h5, h6, h7, h8, h9⟩ := h
  simp only [belowActionLimits, belowLimitBlocking, belowLimitPadding, h1, h2, h3, h4, h5, h6, h7,
    h8, h9]

omit [Time.Instant T D] in
theorem Beside.schedule {i : Nat} {o : Bool × Bool} {f g : Framework R T D}
    (h : Beside i o f g) {st : State} (hst : ∀ d ∈ st.dists, d.Constant R) (s limit : Nat)
    (allowed : Bool) :
    Beside i o (f.schedule i s limit st allowed) (g.schedule 0 s limit st allowed) := by
  unfold Framework.schedule
  split
  · unfold placeAction
    cases ha : st.action with
    | none => exact (h.note _ _).setActions none
    | some a =>
      have heq := triggerAction_eq (D := D) (a := a)
        (fun d hd => hst d (by simp [State.dists, ha, hd])) i f.rng g.rng
      have hset := ((h.note (.scheduled i s limit) (.scheduled 0 s limit)).setRng
        (triggerAction (D := D) i a f.rng).2 (triggerAction (D := D) 0 a g.rng).2).setActions
        (some (triggerAction i a f.rng).1)
      simp only [note_rng, heq]
      exact hset
  · exact h

omit [RngCore R] [Time.Duration D] [Time.Instant T D] in
theorem LeFlags.refl (a : Bool × Bool) : LeFlags a a := ⟨id, id⟩

omit [Time.Duration D] [Time.Instant T D] in
theorem applyCounters_flags (f : Framework R T D) (mi : Nat) (rt : MachineRuntime T D)
    (st : State) : LeFlags f.counterZeroedOnce (f.applyCounters mi rt st).2.counterZeroedOnce :=
  ⟨fun h => Bool.or_eq_true_iff.mpr (.inl h), fun h => Bool.or_eq_true_iff.mpr (.inl h)⟩

omit [Time.Instant T D] in
theorem schedule_flags (f : Framework R T D) (mi s limit : Nat) (st : State) (allowed : Bool) :
    (f.schedule mi s limit st allowed).counterZeroedOnce = f.counterZeroedOnce := by
  unfold Framework.schedule placeAction
  split
  · split <;> rfl
  · rfl

omit [Time.Duration D] [Time.Instant T D] in
theorem arrived_flags {f f1 : Framework R T D} {mi s limit : Nat} {event : Event}
    {rt : MachineRuntime T D} {cur st : State}
    (hin : f1 = (f.sampleNext mi event cur).arrive mi s rt st limit) :
    f1.counterZeroedOnce = f.counterZeroedOnce := by
  subst hin
  unfold Framework.arrive Framework.enterState
  split
  · rfl
  · split <;> rfl

/-- A flag of a zeroed counter stays set. -/
theorem Moves.flags {f f' : Framework R T D} {mi : Nat} {event : Event} {c : StateChange}
    (h : Moves f mi event c f') : LeFlags f.counterZeroedOnce f'.counterZeroedOnce := by
  induction h with
  | ended _ _ => exact LeFlags.refl _
  | idle _ _ _ _ => exact LeFlags.refl _
  | stop _ _ _ _ => exact LeFlags.refl _
  | signal _ _ _ _ => exact LeFlags.refl _
  | enter hrt hne hcur hs hreal hst hin hrt' hm hbelow hz hlen =>
    rw [schedule_flags, ← arrived_flags hin]
    exact applyCounters_flags _ _ _ _
  | chain hrt hne hcur hs hreal hst hin hrt' hm hbelow hz hnest ha hafter ih =>
    rw [schedule_flags, ← arrived_flags hin]
    exact (applyCounters_flags _ _ _ _).trans ih

omit [RngCore R] [Time.Duration D] [Time.Instant T D] in
theorem StateOf.dists [RngCore R] {f : Framework R T D} {i s : Nat} {st : State}
    (h : StateOf f i s st) (hdet : ∀ m, f.machines[i]? = some m → m.Deterministic R) :
    ∀ d ∈ st.dists, d.Constant R := by
  obtain ⟨m, hm, hst⟩ := h
  exact (hdet m hm).dists st (List.mem_of_getElem? hst)

omit [Time.Duration D] [Time.Instant T D] in
/-- What a state samples next does not depend on the source of randomness. -/
theorem StateOf.next {f : Framework R T D} {i s : Nat} {st : State} (h : StateOf f i s st)
    (hdet : ∀ m, f.machines[i]? = some m → m.Deterministic R) {event : Event} {r : R}
    {next : Option Nat} (hs : (st.sampleState event r).1 = next) :
    next ≠ some stateSignal ∧ ∀ r' : R, (st.sampleState event r').1 = next := by
  obtain ⟨m, hm, hst⟩ := h
  have hsame := (hdet m hm).next (List.mem_of_getElem? hst) event
  exact ⟨hs ▸ (hsame r r).2, fun r' => (hsame r' r).1.trans hs⟩

omit [Time.Duration D] [Time.Instant T D] in
theorem Beside.arrived {i s limit : Nat} {o : Bool × Bool} {f g g1 : Framework R T D}
    {event : Event} {rt : MachineRuntime T D} {cur st : State} (h : Beside i o f g)
    (hst : ∀ d ∈ st.dists, d.Constant R) (hrt : f.runtime[i]? = some rt)
    (hin : g1 = (g.sampleNext 0 event cur).arrive 0 s rt st limit) :
    Beside i o ((f.sampleNext i event cur).arrive i s rt st limit) g1 :=
  hin ▸ (h.sampleNext event cur).arrive hst hrt

/-- Whatever a machine does alone it does beside the others, as long as no other machine
has zeroed a counter that it zeroes itself. -/
theorem Moves.beside {i k : Nat} {o : Bool × Bool} {f g g' : Framework R T D} {event : Event}
    {c : StateChange} (h : Moves g k event c g') (hk : k = 0) (hf : Beside i o f g)
    (hdet : ∀ m, f.machines[i]? = some m → m.Deterministic R)
    (hapart : ApartFlags g'.counterZeroedOnce o) :
    ∃ f', Moves f i event c f' ∧ Beside i o f' g' := by
  induction h generalizing f with
  | ended hrt hend =>
    subst hk
    exact ⟨_, .ended (hf.runtime ▸ hrt) hend, hf.note _ _⟩
  | idle hrt hne hcur hs =>
    subst hk
    have hcur' := hf.stateOf.mp hcur
    exact ⟨_, .idle (hf.runtime ▸ hrt) hne hcur' ((hcur'.next hdet hs).2 f.rng), hf.sampleNext _ _⟩
  | stop hrt hne hcur hs =>
    subst hk
    have hcur' := hf.stateOf.mp hcur
    exact ⟨_, .stop (hf.runtime ▸ hrt) hne hcur' ((hcur'.next hdet hs).2 f.rng),
      ((hf.sampleNext _ _).note _ _).setRuntime (hf.runtime ▸ hrt) _⟩
  | signal hrt hne hcur hs =>
    subst hk
    exact absurd rfl ((hf.stateOf.mp hcur).next hdet hs).1
  | enter hrt hne hcur hs hreal hst hin hrt' hm hbelow hz hlen =>
    subst hk
    have hcur' := hf.stateOf.mp hcur
    have hst' := hf.stateOf.mp hst
    have hdists := hst'.dists hdet
    have hrt0 := hf.runtime.symm.trans hrt
    have harrive := hf.arrived hdists hrt0 hin
    have hrt1 := harrive.runtime.symm.trans hrt'
    have hm1 := harrive.machines.symm.trans hm
    have hbelow1 := (belowActionLimits_eq harrive.shared _ _).trans hbelow
    rw [schedule_flags] at hapart
    obtain ⟨hzero, hcounted⟩ := harrive.applyCounters hdists hrt1 hapart
    refine ⟨_, .enter hrt0 hne hcur' ((hcur'.next hdet hs).2 f.rng) hreal hst' rfl hrt1 hm1 hbelow1
      (hzero.trans hz) fun h => ?_, hcounted.schedule hdists _ _ _⟩
    obtain ⟨b, hb⟩ := exists_getElem? (hlen h)
    obtain ⟨a, ha, _⟩ := harrive.slot hb
    exact (List.getElem?_eq_some_iff.mp ha).1
  | chain hrt hne hcur hs hreal hst hin hrt' hm hbelow hz hnest ha hafter ih =>
    subst hk
    have hcur' := hf.stateOf.mp hcur
    have hst' := hf.stateOf.mp hst
    have hdists := hst'.dists hdet
    have hrt0 := hf.runtime.symm.trans hrt
    have harrive := hf.arrived hdists hrt0 hin
    have hrt1 := harrive.runtime.symm.trans hrt'
    have hm1 := harrive.machines.symm.trans hm
    have hbelow1 := (belowActionLimits_eq harrive.shared _ _).trans hbelow
    rw [schedule_flags] at hapart
    obtain ⟨hzero, hcounted⟩ := harrive.applyCounters hdists hrt1
      (hapart.le hnest.flags)
    have hmachines (st : State) := ((Frame.arrived hrt0 rfl).trans
      (show Frame i _ (applyCounters _ i _ st).2 from Frame.applyCounters hrt1)).machines
    obtain ⟨f2, hmoves, hf2⟩ := ih rfl hcounted (fun m hm => hdet m (hmachines _ ▸ hm)) hapart
    obtain ⟨a, ha', rfl⟩ := hf2.slot ha
    refine ⟨_, .chain hrt0 hne hcur' ((hcur'.next hdet hs).2 f.rng) hreal hst' rfl hrt1 hm1 hbelow1
      (hzero.trans hz) hmoves ha' (hf2.runtime.symm.trans hafter), ?_⟩
    rw [Option.isNone_map]
    exact hf2.schedule hdists _ _ _

/-- The events of machine `i` under the name it has alone, and of no other machine. -/
def OnlyMachine (i : Nat) (ρ : Nat → Nat) : Prop := ∀ j, ρ j = 0 ↔ j = i

omit [RngCore R] [Time.Duration D] [Time.Instant T D] in
theorem rename_event (e : TriggerEvent) (ρ : Nat → Nat) : (e.rename ρ).event = e.event := by
  cases e <;> rfl

theorem OnlyMachine.concerns {i : Nat} {ρ : Nat → Nat} (h : OnlyMachine i ρ) (e : TriggerEvent) :
    (e.rename ρ).concerns 0 = e.concerns i := by
  cases e <;> simp [TriggerEvent.rename, TriggerEvent.concerns, h _]

theorem OnlyMachine.limits {i : Nat} {ρ : Nat → Nat} (h : OnlyMachine i ρ) (e : TriggerEvent) :
    (e.rename ρ).limits 0 = e.limits i := by
  cases e <;> simp [TriggerEvent.rename, TriggerEvent.limits, h _]

omit [RngCore R] [Time.Instant T D] in
theorem rename_account (e : TriggerEvent) (ρ : Nat → Nat) (rt : MachineRuntime T D) (blocked : D) :
    rt.recorded (e.rename ρ) blocked = rt.recorded e blocked := by
  cases e <;> rfl

omit [RngCore R] in
theorem rename_recorded (e : TriggerEvent) (ρ : Nat → Nat) (f : Framework R T D) :
    f.recorded (e.rename ρ) = f.recorded e := by
  cases e <;> rfl

omit [RngCore R] [Time.Duration D] [Time.Instant T D] in
theorem Apart.deterministic [RngCore R] {i : Nat} {f f' : Framework R T D} (h : Apart i f f')
    (hdet : ∀ m, f.machines[i]? = some m → m.Deterministic R) :
    ∀ m, f'.machines[i]? = some m → m.Deterministic R :=
  fun m hm => hdet m (h.machines ▸ hm)

/-- A machine's turn beside the others is its turn alone. -/
theorem Turn.beside {i : Nat} {ρ : Nat → Nat} {o : Bool × Bool} {f g g' : Framework R T D}
    {e : TriggerEvent} {blocked : D} (h : Turn (e.rename ρ) blocked g 0 g')
    (hρ : OnlyMachine i ρ) (hf : Beside i o f g)
    (hdet : ∀ m, f.machines[i]? = some m → m.Deterministic R)
    (hapart : ApartFlags g'.counterZeroedOnce o) :
    ∃ f', Turn e blocked f i f' ∧ Beside i o f' g' := by
  cases h with
  | apart hc => exact ⟨f, .apart (hρ.concerns e ▸ hc), hf⟩
  | moved hc hrt hm hrt' hkeep =>
    have hrt0 := hf.runtime.symm.trans hrt
    rw [rename_event, rename_account] at hm
    obtain ⟨f', hmoves, hf'⟩ := hm.beside rfl (hf.setRuntime hrt0 _) hdet hapart
    exact ⟨f', .moved (hρ.concerns e ▸ hc) hrt0 hmoves (hf'.runtime.symm.trans hrt')
      (hρ.limits e ▸ hkeep), hf'⟩
  | used hc hrt hl hm hrt' hne hst hu =>
    have hrt0 := hf.runtime.symm.trans hrt
    rw [rename_event, rename_account] at hm
    obtain ⟨f', hmoves, hf'⟩ := hm.beside rfl (hf.setRuntime hrt0 _) hdet hapart
    have hrt1 := hf'.runtime.symm.trans hrt'
    exact ⟨_, .used (hρ.concerns e ▸ hc) hrt0 (hρ.limits e ▸ hl) hmoves hrt1 hne
      (hf'.stateOf.mp hst) hu, hf'.setRuntime hrt1 _⟩
  | reached hc hrt hl hm hrt' hne hst hu hlen hm' =>
    have hrt0 := hf.runtime.symm.trans hrt
    rw [rename_event, rename_account] at hm
    obtain ⟨f1, hmoves, hf1⟩ := hm.beside rfl (hf.setRuntime hrt0 _) hdet (hapart.le hm'.flags)
    have hrt1 := hf1.runtime.symm.trans hrt'
    have hdet1 := hmoves.frame.toApart.deterministic hdet
    obtain ⟨f', hmoves', hf'⟩ := hm'.beside rfl ((hf1.setRuntime hrt1 _).setActions none) hdet1 hapart
    obtain ⟨b, hb⟩ := exists_getElem? hlen
    obtain ⟨a, ha, _⟩ := hf1.slot hb
    exact ⟨f', .reached (hρ.concerns e ▸ hc) hrt0 (hρ.limits e ▸ hl) hmoves hrt1 hne
      (hf1.stateOf.mp hst) hu (List.getElem?_eq_some_iff.mp ha).1 hmoves', hf'⟩

end Framework

end Maybenot

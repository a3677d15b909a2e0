import Maybenot.Proofs.Alongside
import Maybenot.Proofs.Limits
import Maybenot.Proofs.ParserSafe
import Maybenot.Proofs.Signals
import Maybenot.Proofs.Written

namespace Maybenot
open Lib

/-- A state that neither counts nor signals. -/
structure State.Simple (s : State) : Prop where
  counter : s.counter = (none, none)
  targets : ∀ vector, some vector ∈ s.transitions.toList → ∀ t ∈ vector, t.state ≠ stateSignal

theorem State.Simple.sample {R : Type} [RngCore R] {st : State} (h : st.Simple) (event : Event)
    (rng : R) : (st.sampleState event rng).1 ≠ some stateSignal := by
  intro hsample
  unfold State.sampleState at hsample
  split at hsample
  · exact absurd hsample (by simp)
  · rename_i vector hv
    obtain ⟨t, ht, hstate⟩ := State.firstAbove_mem hsample
    exact h.targets vector (hv ▸ Vector.mem_toList_iff.mpr (Vector.getElem_mem _)) t ht hstate

/-- A machine all of whose states are simple. -/
def Machine.Simple (m : Machine) : Prop := ∀ st ∈ m.states, st.Simple

section Slots

variable {D : Type} {last : Nat → Option (TriggerAction D)}

/-- The places for actions in a batch, beside those of the call that it would have come to: what
is there stays, and else an action of an earlier call may be there. -/
structure Slots (last : Nat → Option (TriggerAction D)) (xs ys : List (Option (TriggerAction D))) :
    Prop where
  length : xs.length = ys.length
  kept : ∀ (i : Nat) a, ys[i]? = some (some a) → xs[i]? = some (some a)
  earlier : ∀ (i : Nat) a, xs[i]? = some (some a) →
    ys[i]? = some (some a) ∨ (ys[i]? = some none ∧ last i = some a)

theorem Slots.set {xs ys : List (Option (TriggerAction D))} (h : Slots last xs ys) (i : Nat)
    (x : Option (TriggerAction D)) : Slots last (xs.set i x) (ys.set i x) := by
  refine ⟨by simp [h.length], fun j a hj => ?_, fun j a hj => ?_⟩
  · rw [List.getElem?_set] at hj ⊢
    split
    · rename_i hij
      rw [if_pos hij] at hj
      rwa [h.length]
    · rename_i hij
      rw [if_neg hij] at hj
      exact h.kept j a hj
  · rw [List.getElem?_set] at hj ⊢
    split
    · rename_i hij
      rw [if_pos hij] at hj
      rw [← h.length]
      exact .inl hj
    · rename_i hij
      rw [if_neg hij] at hj
      exact h.earlier j a hj

end Slots

namespace Framework

variable {R T D : Type}

/-- The framework with other actions and another log. -/
def shaded (f : Framework R T D) (actions : List (Option (TriggerAction D))) (log : List Step) :
    Framework R T D :=
  { f with actions := actions, log := log }

/-- A framework within a batch beside one within the call that has come to the same: they differ
in their actions, in what was asked for before, and in their logs. -/
structure Shades (ms : List Machine) (last : Nat → Option (TriggerAction D))
    (f g : Framework R T D) : Prop where
  same : f = g.shaded f.actions f.log
  slots : Slots last f.actions g.actions
  machines : g.machines = ms
  silent : g.signalPending = none
  unzeroed : g.counterZeroedOnce = (false, false)

section Steps

variable {ms : List Machine} {last : Nat → Option (TriggerAction D)} {f g : Framework R T D}

/-- What leaves the actions alone may be done to both. -/
theorem Shades.map (h : Shades ms last f g) {u : Framework R T D → Framework R T D}
    (hshaded : ∀ g actions log, ∃ log', u (g.shaded actions log) = (u g).shaded actions log')
    (hkeep : ∀ g, ((u g).actions, (u g).machines, (u g).signalPending, (u g).counterZeroedOnce) =
      (g.actions, g.machines, g.signalPending, g.counterZeroedOnce)) :
    Shades ms last (u f) (u g) := by
  have hg := hkeep g
  simp only [Prod.mk.injEq] at hg
  obtain ⟨hactions, hmachines, hsilent, hunzeroed⟩ := hg
  obtain ⟨log, hlog⟩ := hshaded g f.actions f.log
  rw [← h.same] at hlog
  have hfactions : (u f).actions = f.actions := congrArg (·.1) (hkeep f)
  refine ⟨?_, ?_, hmachines.trans h.machines, hsilent.trans h.silent, hunzeroed.trans h.unzeroed⟩
  · have hflog : (u f).log = log := congrArg (·.log) hlog
    rw [hfactions, hflog]
    exact hlog
  · rw [hfactions, hactions]
    exact h.slots

theorem Shades.setAction (h : Shades ms last f g) (mi : Nat) (a : Option (TriggerAction D)) :
    Alike (Shades ms last) (f.setAction mi a) (g.setAction mi a) := by
  unfold Framework.setAction
  rw [h.slots.length]
  split
  · have hsame := congrArg (fun f' : Framework R T D => f'.shaded (f.actions.set mi a) f.log) h.same
    exact .returned ⟨hsame, h.slots.set mi a, h.machines, h.silent, h.unzeroed⟩
  · exact .failed _

variable [RngCore R] [Time.Duration D] [Time.Instant T D]

omit [RngCore R] in
theorem Shades.recorded (h : Shades ms last f g) (e : TriggerEvent) :
    Shades ms last (f.recorded e) (g.recorded e) := by
  refine h.map (u := fun f => f.recorded e) (fun g actions log => ⟨log, ?_⟩) fun g =>
    recorded_apart (fun f : Framework R T D =>
      (f.actions, f.machines, f.signalPending, f.counterZeroedOnce)) (fun _ _ _ _ _ _ => rfl) g e
  cases e with
  | blockingBegin _ | blockingEnd =>
    change (if g.blockingActive = true then _ else _) =
      Framework.shaded (if g.blockingActive = true then _ else _) actions log
    split <;> rfl
  | _ => rfl

/-- Where nothing counts, no function asks for the actions in place. -/
theorem shades_alongside (hms : ∀ m ∈ ms, m.Simple) :
    Alongside (R := R) (T := T) ms (Shades ms last) (fun rt rt' => rt = rt') where
  machines h := ⟨(congrArg (·.machines) h.same).trans h.machines, h.machines⟩
  signal h := congrArg (·.signalPending) h.same
  length h := congrArg (·.runtime.length) h.same
  runtimeAt mi h := by
    rw [h.same]
    exact .refl _
  current h := congrArg _ h
  limit h := congrArg _ h
  move s h := h ▸ rfl
  relimit n h := h ▸ rfl
  note s h := h.map (u := fun f => f.note s) (fun _ _ _ => ⟨_, rfl⟩) fun _ => rfl
  draw draw h := h.map (u := fun f => { f with rng := draw f.rng }) (fun _ _ _ => ⟨_, rfl⟩)
    fun _ => rfl
  sample event h _ _ := by
    rw [h.same]
    rfl
  sampleLimit h _ _ _ := by
    rw [h.same]
    rfl
  ask mi h _ _ _ := by
    rw [h.same]
    rfl
  setRuntime mi h hrt := by
    subst hrt
    exact h.map (u := fun f => f.setRuntime mi _) (fun _ _ _ => ⟨_, rfl⟩) fun _ => rfl
  setAction mi a h := h.setAction mi a
  below h hrt _ := by
    rw [h.same, hrt]
    rfl
  count mi h hrt hm hst := by
    subst hrt
    rw [applyCounters_none (hms _ hm _ hst).counter, applyCounters_none (hms _ hm _ hst).counter]
    exact ⟨rfl, h.map (u := fun f => f.setRuntime mi _) (fun _ _ _ => ⟨_, rfl⟩) fun _ => rfl⟩
  actionAt _ hm hst hcounts _ := absurd (hms _ hm _ hst).counter hcounts
  raise _ hm hst hs _ := absurd hs ((hms _ hm _ hst).sample _ _)
  take h := ⟨congrArg (fun f : Framework R T D => { f with signalPending := none }) h.same, h.slots,
    h.machines, rfl, h.unzeroed⟩
  record e h := h.recorded e
  recordOwn e h hrt := by
    rw [h.same, hrt]
    rfl

end Steps

section Cut

/-- The last action for a machine in what some calls returned. -/
def lastReturned : List (List (TriggerAction D)) → Nat → Option (TriggerAction D)
  | [], _ => none
  | as :: rest, mi => (lastReturned rest mi).or (as.find? fun a => a.machine = mi)

/-- Among actions in the places of their machines, the one of a machine is found in its place. -/
theorem find_placed {xs : List (Option (TriggerAction D))} {k : Nat}
    (h : ∀ j a, xs[j]? = some (some a) → a.machine = k + j) (i : Nat) :
    (xs.filterMap id).find? (fun a => a.machine = k + i) = xs[i]?.join := by
  induction xs generalizing k i with
  | nil => rfl
  | cons x xs ih =>
    have hrest : ∀ j a, xs[j]? = some (some a) → a.machine = k + 1 + j := by
      intro j a ha
      rw [h (j + 1) a ha]
      omega
    have hlater := (filterMap_increasing hrest).2
    cases x with
    | none =>
      cases i with
      | zero =>
        refine List.find?_eq_none.mpr fun a ha => ?_
        have hle := hlater a ha
        simp only [decide_eq_true_eq]
        omega
      | succ i =>
        rw [show k + (i + 1) = k + 1 + i by omega]
        exact ih hrest i
    | some b =>
      have hb : b.machine = k := h 0 b rfl
      change (b :: xs.filterMap id).find? _ = _
      cases i with
      | zero =>
        rw [List.find?_cons_of_pos (by simpa using hb)]
        rfl
      | succ i =>
        rw [List.find?_cons_of_neg (by simp only [hb, decide_eq_true_eq]; omega),
          show k + (i + 1) = k + 1 + i by omega]
        exact ih hrest i

variable {ms : List Machine} {last : Nat → Option (TriggerAction D)} {f g : Framework R T D}

/-- At the next call the actions of the last one are earlier ones. -/
theorem Shades.startCall (h : Shades ms last f g) (now : T) (hnow : g.currentTime = now) :
    Shades ms (fun i => g.actions[i]?.join.or (last i)) f (g.startCall now) := by
  refine ⟨?_, ⟨?_, fun i a ha => ?_, fun i a ha => .inr ?_⟩, h.machines, h.silent, rfl⟩
  · refine h.same.trans ?_
    unfold shaded Framework.startCall
    rw [hnow, ← h.unzeroed]
  · simp [Framework.startCall, h.slots.length]
  · simp [Framework.startCall, -List.map_const'] at ha
  · have hempty {x : Option (TriggerAction D)} (hx : g.actions[i]? = some x) :
        (g.startCall now).actions[i]? = some none := by
      simp [Framework.startCall, -List.map_const', hx]
    rcases h.slots.earlier i a ha with hslot | ⟨hslot, hlast⟩
    · rw [hslot]
      exact ⟨hempty hslot, rfl⟩
    · rw [hslot]
      exact ⟨hempty hslot, hlast⟩

variable [RngCore R] [Time.Duration D] [Time.Instant T D]

/-- The action that a call returns for a machine is the one in its place. -/
theorem call_found {events : List TriggerEvent} {now : T} {actions : List (TriggerAction D)}
    (h : f.triggerEvents events now = .ok (actions, g)) (i : Nat) :
    actions.find? (fun a => a.machine = i) = g.actions[i]?.join := by
  have hplaced : ∀ j a, g.actions[j]? = some (some a) → a.machine = 0 + j := by
    intro j a ha
    rw [Nat.zero_add]
    exact call_labelled h j a ha
  obtain ⟨_, _, _, rfl⟩ := triggerEvents_ok h
  have hfound := find_placed hplaced i
  rwa [Nat.zero_add] at hfound

theorem processEvents_append {events : List TriggerEvent} (h : f.processEvents events = .ok g)
    (rest : List TriggerEvent) : f.processEvents (events ++ rest) = g.processEvents rest := by
  unfold Framework.processEvents at h ⊢
  rw [List.foldlM_append]
  exact bind_eq h

theorem processEvents_time {events : List TriggerEvent} (h : f.processEvents events = .ok g) :
    g.currentTime = f.currentTime := by
  refine foldlM_keeps (P := fun g : Framework R T D => g.currentTime = f.currentTime) ?_ rfl h
  intro f1 e _ g1 hf1 he
  have hrecorded := recorded_apart (fun f : Framework R T D => f.currentTime)
    (fun _ _ _ _ _ _ => rfl) f1 e
  exact (congrArg (·.2.1) (processEvent_fixed he)).trans (hrecorded.trans hf1)

/-- The last call of some returned what now is in the places for actions. -/
theorem run_last {calls : List (List TriggerEvent × T)} {answers : List (List (TriggerAction D))}
    (h : f.run calls = .ok (answers, g)) :
    ∀ as, answers.getLast? = some as → as = g.actions.filterMap id := by
  induction calls generalizing f answers with
  | nil =>
    obtain ⟨rfl, rfl⟩ := Prod.mk.inj (pure_ok.mp h)
    exact fun as has => absurd has (by simp)
  | cons c cs ih =>
    obtain ⟨⟨actions, f1⟩, hcall, h⟩ := bind_ok.mp h
    obtain ⟨⟨rest, f2⟩, hrun, h⟩ := bind_ok.mp h
    obtain ⟨rfl, rfl⟩ := Prod.mk.inj (pure_ok.mp h)
    intro as has
    cases hrest : rest.getLast? with
    | some as' =>
      obtain rfl : as' = as := by simpa [List.getLast?_cons, hrest] using has
      exact ih hrun as' hrest
    | none =>
      obtain rfl : rest = [] := List.getLast?_eq_none_iff.mp hrest
      obtain rfl : actions = as := by simpa using has
      cases cs with
      | nil =>
        obtain ⟨_, _, _, rfl⟩ := triggerEvents_ok hcall
        obtain ⟨_, rfl⟩ := Prod.mk.inj (pure_ok.mp hrun)
        rfl
      | cons c' cs =>
        obtain ⟨_, _, hrun⟩ := bind_ok.mp hrun
        obtain ⟨_, _, hrun⟩ := bind_ok.mp hrun
        exact absurd (Prod.mk.inj (pure_ok.mp hrun)).1 (by simp)

omit [RngCore R] [Time.Duration D] [Time.Instant T D] in
/-- The framework of a call, beside itself. -/
theorem Shades.started (hsilent : f.signalPending = none) (now : T) :
    Shades f.machines (fun _ => none) (f.startCall now) (f.startCall now) :=
  ⟨rfl, ⟨rfl, fun _ _ h => h, fun _ _ h => .inl h⟩, rfl, hsilent, rfl⟩

/-- A call of simple machines ends where its events have led: nothing is delivered. -/
theorem call_silent (hms : ∀ m ∈ f.machines, m.Simple) (hsilent : f.signalPending = none)
    {events : List TriggerEvent} {now : T} {actions : List (TriggerAction D)}
    (h : f.triggerEvents events now = .ok (actions, g)) :
    (f.startCall now).processEvents events = .ok g ∧ g.signalPending = none ∧
      actions = g.actions.filterMap id := by
  obtain ⟨g0, hg0, hdeliver, rfl⟩ := triggerEvents_ok h
  have hstart := Shades.started hsilent now
  obtain ⟨g1, hg1, hend⟩ := ((shades_alongside hms).processEvents hstart events).ok hg0
  obtain rfl : g1 = g0 := Except.ok.inj (hg1.symm.trans hg0)
  unfold deliverSignal at hdeliver
  rw [hend.silent] at hdeliver
  obtain rfl : g1 = g := pure_ok.mp hdeliver
  exact ⟨hg0, hend.silent, rfl⟩

theorem silent_between (hf : Reachable f) : (∀ m ∈ f.machines, m.Simple) →
    f.signalPending = none := by
  refine hf.invariant (P := fun f => (∀ m ∈ f.machines, m.Simple) → f.signalPending = none) ?_ ?_
  · intro f hinitial _
    exact new_signalPending hinitial
  · rintro f f' hsilent ⟨events, now, actions, _, hcall⟩ hms
    have hms' : ∀ m ∈ f.machines, m.Simple := (shape_eq (triggerEvents_shape hcall)).1 ▸ hms
    exact (call_silent hms' (hsilent hms') hcall).2.1

/-- A batch that goes on, beside the calls for its parts. -/
theorem Shades.run (hms : ∀ m ∈ ms, m.Simple) (h : Shades ms last f g) (hg : Reachable g)
    (ess : List (List TriggerEvent)) :
    ∃ f' answers g' last', f.processEvents ess.flatten = .ok f' ∧
      g.run (ess.map fun es => (es, g.currentTime)) = .ok (answers, g') ∧
      Shades ms last' f' g' ∧ ∀ i, g'.actions[i]?.join.or (last' i) =
        (lastReturned answers i).or (g.actions[i]?.join.or (last i)) := by
  induction ess generalizing f g last with
  | nil => exact ⟨f, [], g, last, rfl, rfl, h, fun i => rfl⟩
  | cons es ess ih =>
    obtain ⟨hwf, hsent⟩ := hg.wellFormed
    obtain ⟨actions, g1, hcall, _, _⟩ := triggerEvents_total hwf hsent es g.currentTime
    have hgms : ∀ m ∈ g.machines, m.Simple := h.machines ▸ hms
    obtain ⟨hg1, _, rfl⟩ := call_silent hgms h.silent hcall
    have hstart := h.startCall g.currentTime rfl
    obtain ⟨f1, hf1, h1⟩ := ((shades_alongside hms).processEvents hstart es).ok hg1
    have htime : g1.currentTime = g.currentTime := (processEvents_time hg1).trans rfl
    obtain ⟨f', answers, g', last', hf', hrun, h', hlast⟩ :=
      ih h1 (.next hg ⟨es, g.currentTime, _, trivial, hcall⟩)
    rw [htime] at hrun
    refine ⟨f', g1.actions.filterMap id :: answers, g', last', ?_, ?_, h', fun i => ?_⟩
    · exact (processEvents_append hf1 ess.flatten).trans hf'
    · exact (bind_eq hcall).trans (bind_eq hrun)
    · rw [hlast i, lastReturned, call_found hcall]
      simp only [Option.or_assoc]

/-- A batch that is cut into calls at its time comes to the same framework but for the actions. What
it returns for a machine is what the calls have returned for it last, unless that was taken back
since, and what the last call returns is always there. -/
theorem batch_cut (hf : Reachable f) (hms : ∀ m ∈ f.machines, m.Simple) (es : List TriggerEvent)
    (ess : List (List TriggerEvent)) (now : T) :
    ∃ (actions : List (TriggerAction D)) (g : Framework R T D)
      (answers : List (List (TriggerAction D))) (g' : Framework R T D),
      f.triggerEvents (es :: ess).flatten now = .ok (actions, g) ∧
      f.run ((es :: ess).map fun es => (es, now)) = .ok (answers, g') ∧
      g' = { g with actions := g'.actions, log := g'.log } ∧
      (∀ a ∈ actions, lastReturned answers a.machine = some a) ∧
      ∀ as ∈ answers.getLast?, ∀ a ∈ as, a ∈ actions := by
  have hsilent := silent_between hf hms
  obtain ⟨hwf, hsent⟩ := hf.wellFormed
  obtain ⟨first, g1, hcall, _, _⟩ := triggerEvents_total hwf hsent es now
  obtain ⟨hg1, _, _⟩ := call_silent hms hsilent hcall
  obtain ⟨f1, hf1, h1⟩ := ((shades_alongside hms).processEvents (.started hsilent now) es).ok hg1
  have htime : g1.currentTime = now := processEvents_time hg1
  obtain ⟨f', answers, g', last', hf', hrun, h', hlast⟩ :=
    h1.run hms (.next hf ⟨es, now, first, trivial, hcall⟩) ess
  rw [htime] at hrun
  have hbatch : (f.startCall now).processEvents (es :: ess).flatten = .ok f' :=
    (processEvents_append hf1 ess.flatten).trans hf'
  have hcalls : f.run ((es :: ess).map fun es => (es, now)) = .ok (first :: answers, g') :=
    (bind_eq hcall).trans (bind_eq hrun)
  -- nothing is pending beside the calls, so nothing is after the batch
  have hquiet : f'.deliverSignal = .ok f' := by
    unfold deliverSignal
    rw [show f'.signalPending = none from (congrArg (·.signalPending) h'.same).trans h'.silent]
    rfl
  have htrigger : f.triggerEvents (es :: ess).flatten now = .ok (f'.actions.filterMap id, f') :=
    (bind_eq hbatch).trans (bind_eq hquiet)
  refine ⟨f'.actions.filterMap id, f', first :: answers, g', htrigger, hcalls, ?_, ?_, ?_⟩
  · rw [h'.same]
    rfl
  · intro a ha
    have hslot := h'.slots.earlier _ a (returned_slot htrigger ha)
    have hor : g'.actions[a.machine]?.join.or (last' a.machine) = some a := by
      rcases hslot with hslot | ⟨hslot, hearlier⟩
      · rw [hslot]
        rfl
      · rw [hslot]
        exact hearlier
    rw [lastReturned, call_found hcall, ← hor, hlast, Option.or_none]
  · intro as has a ha
    obtain rfl := run_last hcalls as has
    obtain ⟨_, hmem, rfl⟩ := List.mem_filterMap.mp ha
    obtain ⟨mi, hmi⟩ := List.getElem?_of_mem hmem
    exact List.mem_filterMap.mpr ⟨_, List.mem_of_getElem? (h'.slots.kept mi a hmi), rfl⟩

theorem timedPadder_simple : timedPadder.Simple := by
  have hnew {t : Event → List Trans} (ht : ∀ e, ∀ x ∈ t e, x.state ≠ stateSignal)
      (a : Option Action) : State.Simple { State.new t with action := a } := by
    refine ⟨rfl, fun vector hv x hx => ?_⟩
    obtain ⟨e, rfl⟩ := State.new_transitions hv
    exact ht e x hx
  intro st hst
  rcases List.mem_cons.mp hst with rfl | hst
  · refine hnew (fun e x hx => ?_) _
    cases e with
    | normalSent => exact List.mem_singleton.mp hx ▸ by decide
    | _ => exact absurd hx List.not_mem_nil
  · exact List.mem_singleton.mp hst ▸ hnew (fun _ _ hx => absurd hx List.not_mem_nil) _

/-- Padding that is taken back within a batch was returned by the first of the calls. -/
theorem timedPadder_cut : ∃ f : Framework Unit Instant Duration, play [timedPadder] [] = some f ∧
    ∃ (actions : List (TriggerAction Duration)) (g : Framework Unit Instant Duration)
      (answers : List (List (TriggerAction Duration))) (g' : Framework Unit Instant Duration),
      f.triggerEvents [.normalSent, .paddingSent 0] 0 = .ok (actions, g) ∧
      f.run [([.normalSent], 0), ([.paddingSent 0], 0)] = .ok (answers, g') ∧
      g' = { g with actions := g'.actions, log := g'.log } ∧
      actions = [] ∧ answers = [[.sendPadding 0 false false 0], []] := by
  have hplay : ((play [timedPadder] []).bind fun f =>
      (f.triggerEvents [.normalSent, .paddingSent 0] 0).toOption.bind fun r =>
        (f.run [([.normalSent], 0), ([.paddingSent 0], 0)]).toOption.map fun s =>
          (f.machines, r.1, s.1)) =
        some ([timedPadder], [], [[.sendPadding 0 false false 0], []]) := by decide +kernel
  simp only [Option.bind_eq_some_iff, Option.map_eq_some_iff, toOption_eq_some,
    Prod.mk.injEq] at hplay
  obtain ⟨f, hf, ⟨as, h⟩, hr, ⟨bs, h'⟩, hs, hmachines, rfl, rfl⟩ := hplay
  have hsimple : ∀ m ∈ f.machines, m.Simple := by
    rw [hmachines]
    intro m hm
    exact List.mem_singleton.mp hm ▸ timedPadder_simple
  obtain ⟨actions, g, answers, g', hcall, hrun, hsame, -, -⟩ :=
    batch_cut (play_reachable hf) hsimple [.normalSent] [[.paddingSent 0]] 0
  obtain ⟨rfl, rfl⟩ := Prod.mk.inj (Except.ok.inj (hcall.symm.trans hr))
  obtain ⟨rfl, rfl⟩ := Prod.mk.inj (Except.ok.inj (hrun.symm.trans hs))
  exact ⟨f, hf, _, g, _, g', hcall, hrun, hsame, rfl, rfl⟩

end Cut

end Framework

end Maybenot

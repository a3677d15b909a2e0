import Mathlib.Data.List.Infix
import Maybenot.Proofs.Beside

namespace Maybenot.Framework
open Lib

variable {R T D : Type} {n : Nat}

/-- The flags that the runs of other machines than `i` have set. -/
def setElsewhere (alone : Fin n → Framework R T D) (i : Fin n) : Bool × Bool :=
  (decide (∃ j, j ≠ i ∧ (alone j).counterZeroedOnce.1 = true),
    decide (∃ j, j ≠ i ∧ (alone j).counterZeroedOnce.2 = true))

/-- The flags that any of the runs has set. -/
def setAnywhere (alone : Fin n → Framework R T D) : Bool × Bool :=
  (decide (∃ j, (alone j).counterZeroedOnce.1 = true),
    decide (∃ j, (alone j).counterZeroedOnce.2 = true))

/-- No counter is zeroed in two of the runs. -/
def ZeroApart (alone : Fin n → Framework R T D) : Prop :=
  ∀ i j, i ≠ j → ApartFlags (alone i).counterZeroedOnce (alone j).counterZeroedOnce

/-- The machines of `f` are where each is that runs alone. -/
structure Joint (f : Framework R T D) (alone : Fin n → Framework R T D) : Prop where
  size : f.runtime.length = n
  sole : ∀ i, (alone i).runtime.length = 1 ∧ (alone i).actions.length = 1
  beside : ∀ i : Fin n, Beside i (setElsewhere alone i) f (alone i)
  quiet : f.signalPending = none

theorem or_decide {n : Nat} {p : Fin n → Prop} [DecidablePred p] (b : Bool) (i : Fin n)
    (hb : b = true ↔ p i) : (b || decide (∃ j, j ≠ i ∧ p j)) = decide (∃ j, p j) := by
  rw [Bool.eq_iff_iff]
  simp only [Bool.or_eq_true, decide_eq_true_eq, hb]
  constructor
  · rintro (h | ⟨j, _, h⟩)
    · exact ⟨i, h⟩
    · exact ⟨j, h⟩
  · rintro ⟨j, h⟩
    by_cases hj : j = i
    · exact .inl (hj ▸ h)
    · exact .inr ⟨j, hj, h⟩

theorem orFlags_elsewhere (alone : Fin n → Framework R T D) (i : Fin n) :
    orFlags (alone i).counterZeroedOnce (setElsewhere alone i) = setAnywhere alone :=
  Prod.ext (or_decide (p := fun j => (alone j).counterZeroedOnce.1 = true) _ i Iff.rfl)
    (or_decide (p := fun j => (alone j).counterZeroedOnce.2 = true) _ i Iff.rfl)

theorem ZeroApart.elsewhere {alone : Fin n → Framework R T D} (h : ZeroApart alone) (i : Fin n) :
    ApartFlags (alone i).counterZeroedOnce (setElsewhere alone i) := by
  have hother (j : Fin n) (hj : j ≠ i) := h i j (Ne.symm hj)
  simp only [ApartFlags, setElsewhere, Bool.and_eq_false_iff, decide_eq_false_iff_not] at hother ⊢
  grind

theorem ZeroApart.le {alone alone' : Fin n → Framework R T D} (h : ZeroApart alone')
    (hle : ∀ i, LeFlags (alone i).counterZeroedOnce (alone' i).counterZeroedOnce) :
    ZeroApart alone := by
  intro i j hij
  have hi := hle i
  have hj := hle j
  have hapart := h i j hij
  simp only [ApartFlags, LeFlags, Bool.and_eq_false_iff] at *
  grind

theorem setElsewhere_update (alone : Fin n → Framework R T D) (i : Fin n)
    (g : Framework R T D) : setElsewhere (Function.update alone i g) i = setElsewhere alone i := by
  have hother (j : Fin n) (hj : j ≠ i) : Function.update alone i g j = alone j :=
    Function.update_of_ne hj _ _
  exact Prod.ext
    (decide_eq_decide.mpr (exists_congr fun j => and_congr_right fun hj => by rw [hother j hj]))
    (decide_eq_decide.mpr (exists_congr fun j => and_congr_right fun hj => by rw [hother j hj]))

/-- A step of machine `i` leaves the other machines beside their own runs. -/
theorem Joint.step {f f' : Framework R T D} {alone : Fin n → Framework R T D} (h : Joint f alone)
    {i : Fin n} {g' : Framework R T D} (hf : Apart i f f') (hg : Apart 0 (alone i) g')
    (hbeside : Beside i (setElsewhere alone i) f' g') :
    Joint f' (Function.update alone i g') := by
  have hsame := setElsewhere_update alone i g'
  have hany : f'.counterZeroedOnce = setAnywhere (Function.update alone i g') := by
    rw [← orFlags_elsewhere _ i, hsame, Function.update_self]
    exact hbeside.flags
  refine ⟨hf.runtimeLength.trans h.size, fun j => ?_, fun j => ?_, hbeside.quiet.1⟩
  · by_cases hj : j = i
    · subst hj
      rw [Function.update_self, hg.runtimeLength, hg.actionsLength]
      exact h.sole j
    · rw [Function.update_of_ne hj]
      exact h.sole j
  · by_cases hj : j = i
    · subst hj
      rw [hsame, Function.update_self]
      exact hbeside
    · have hold := h.beside j
      obtain ⟨hr, ha⟩ := hf.others j.val (fun hne => hj (Fin.ext hne))
      have hflags := hany.trans (orFlags_elsewhere (Function.update alone i g') j).symm
      have hshared : f'.shared = f.shared := congrArg (·.2) hf.fixed
      rw [Function.update_of_ne hj] at hflags ⊢
      exact ⟨hf.machines ▸ hold.machines, hold.runtime.trans hr.symm, ha ▸ hold.actions,
        hold.shared.trans hshared.symm, ⟨hbeside.quiet.1, hold.quiet.2⟩, hflags⟩

variable [RngCore R] [Time.Duration D] [Time.Instant T D]

theorem Turn.flags {e : TriggerEvent} {blocked : D} {f f' : Framework R T D} {mi : Nat}
    (h : Turn e blocked f mi f') : LeFlags f.counterZeroedOnce f'.counterZeroedOnce := by
  cases h with
  | apart hc => exact LeFlags.refl _
  | moved hc hrt hm hrt' hkeep => exact hm.flags
  | used hc hrt hl hm hrt' hne hst hu => exact hm.flags
  | reached hc hrt hl hm hrt' hne hst hu hlen hm' => exact hm.flags.trans hm'.flags

omit [RngCore R] in
theorem recorded_flags (f : Framework R T D) (e : TriggerEvent) :
    (f.recorded e).counterZeroedOnce = f.counterZeroedOnce :=
  recorded_apart Framework.counterZeroedOnce (fun _ _ _ _ _ _ => rfl) f e

theorem processEvent_flags {f f' : Framework R T D} {e : TriggerEvent}
    (h : f.processEvent e = .ok f') : LeFlags f.counterZeroedOnce f'.counterZeroedOnce := by
  rw [processEvent_eq] at h
  rw [← recorded_flags f e]
  exact foldlM_rel (R := fun f f' => LeFlags f.counterZeroedOnce f'.counterZeroedOnce)
    (fun _ => LeFlags.refl _) LeFlags.trans (fun _ _ _ _ ht => (turn_ok ht).flags) _ _ h

theorem processEvents_flags {f f' : Framework R T D} {events : List TriggerEvent}
    (h : f.processEvents events = .ok f') : LeFlags f.counterZeroedOnce f'.counterZeroedOnce :=
  foldlM_rel (R := fun f f' => LeFlags f.counterZeroedOnce f'.counterZeroedOnce)
    (fun _ => LeFlags.refl _) LeFlags.trans (fun _ _ _ _ => processEvent_flags) _ _ h

/-- The only machine's turn is the whole processing of an event. -/
theorem processEvent_sole {f f' : Framework R T D} {e : TriggerEvent} (hf : f.runtime.length = 1)
    (h : f.processEvent e = .ok f') : Turn e f.blockedFor (f.recorded e) 0 f' := by
  rw [processEvent_eq, eachMachine, recorded_runtime, hf] at h
  have hone : (f.recorded e).runtime.length = 1 := by rw [recorded_runtime, hf]
  simp only [List.range_succ, List.range_zero, List.nil_append, List.foldlM_cons, bind_ok] at h
  obtain ⟨g, hg, h⟩ := h
  obtain rfl : g = f' := by simpa using h
  exact turn_ok hg

omit [RngCore R] in
theorem recorded_shared {f g : Framework R T D} (h : g.shared = f.shared) (e : TriggerEvent) :
    (g.recorded e).shared = (f.recorded e).shared ∧ g.blockedFor = f.blockedFor := by
  simp only [shared, Prod.mk.injEq] at h
  obtain ⟨h1, h2, h3, h4, h5, h6, h7, h8, h9⟩ := h
  have hblocked : g.blockedFor = f.blockedFor := by simp only [blockedFor, h1, h7, h8]
  refine ⟨?_, hblocked⟩
  cases e with
  | blockingBegin _ | blockingEnd =>
    simp only [recorded, h8]
    split <;> simp only [shared, h1, h2, h3, h4, h5, h6, h7, h8, h9, hblocked]
  | _ => simp only [recorded, shared, h1, h2, h3, h4, h5, h6, h7, h8, h9]

omit [RngCore R] in
theorem recorded_pending (f : Framework R T D) (e : TriggerEvent) :
    (f.recorded e).signalPending = f.signalPending :=
  recorded_apart Framework.signalPending (fun _ _ _ _ _ _ => rfl) f e

omit [RngCore R] in
theorem Beside.recorded {i : Nat} {o : Bool × Bool} {f g : Framework R T D}
    (h : Beside i o f g) (e : TriggerEvent) : Beside i o (f.recorded e) (g.recorded e) := by
  obtain ⟨hm, _⟩ := shape_eq (recorded_shape f e)
  obtain ⟨hm', _⟩ := shape_eq (recorded_shape g e)
  refine ⟨?_, ?_, ?_, (recorded_shared h.shared e).1, ?_, ?_⟩
  · rw [hm, hm', h.machines]
  · rw [recorded_runtime, recorded_runtime, h.runtime]
  · rw [recorded_actions, recorded_actions, h.actions]
  · rw [recorded_pending, recorded_pending]
    exact h.quiet
  · rw [recorded_flags, recorded_flags, h.flags]

/-- All machines of a framework are deterministic. -/
def AllDeterministic (f : Framework R T D) : Prop :=
  ∀ (i : Nat) m, f.machines[i]? = some m → m.Deterministic R

/-- The turns of all machines at an event are those they take alone. -/
theorem Joint.turns {f : Framework R T D} {alone alone' : Fin n → Framework R T D}
    {ρ : Fin n → Nat → Nat} {e : TriggerEvent} {blocked : D} (h : Joint f alone)
    (hdet : AllDeterministic f) (hρ : ∀ i : Fin n, OnlyMachine i (ρ i))
    (hturn : ∀ i, Turn (e.rename (ρ i)) blocked (alone i) 0 (alone' i))
    (hzero : ZeroApart alone') {k : Nat} (hk : k ≤ n) :
    ∃ f', (List.range k).foldlM (turn e blocked) f = .ok f' ∧ f'.machines = f.machines ∧
      Joint f' fun i => if i.val < k then alone' i else alone i := by
  induction k with
  | zero => exact ⟨f, rfl, rfl, by simpa using h⟩
  | succ k ih =>
    obtain ⟨g, hg, hm, hjoint⟩ := ih (by omega)
    let mid (i : Fin n) := if i.val < k then alone' i else alone i
    let i : Fin n := ⟨k, hk⟩
    have hmid : mid i = alone i := if_neg (Nat.lt_irrefl k)
    have hnext : Function.update mid i (alone' i) =
        fun j => if j.val < k + 1 then alone' j else alone j := by
      funext j
      by_cases hj : j = i
      · subst hj
        rw [Function.update_self, if_pos (Nat.lt_succ_self k)]
      · have hne : j.val ≠ k := fun he => hj (Fin.ext he)
        simp only [Function.update_of_ne hj, mid, show j.val < k + 1 ↔ j.val < k by omega]
    have hapart : ApartFlags (alone' i).counterZeroedOnce (setElsewhere mid i) := by
      have hle : ZeroApart (Function.update mid i (alone' i)) := by
        refine hzero.le fun j => ?_
        rw [hnext]
        dsimp only
        split
        · exact LeFlags.refl _
        · exact (hturn j).flags
      have helse := hle.elsewhere i
      rwa [setElsewhere_update, Function.update_self] at helse
    have hbeside : Beside i (setElsewhere mid i) g (alone i) := hmid ▸ hjoint.beside i
    obtain ⟨f', ht, hf'⟩ := (hturn i).beside (hρ i) hbeside (fun m hmi => hdet k m (hm ▸ hmi)) hapart
    refine ⟨f', ?_, ht.apart_of.machines.trans hm, ?_⟩
    · rw [List.range_succ, List.foldlM_append]
      apply (bind_eq hg).trans
      rw [List.foldlM_cons]
      exact bind_eq ht.turn
    · rw [← hnext]
      refine hjoint.step ht.apart_of ?_ hf'
      change Apart 0 (mid i) (alone' i)
      rw [hmid]
      exact (hturn i).apart_of

theorem Joint.event {f : Framework R T D} {alone alone' : Fin n → Framework R T D}
    {ρ : Fin n → Nat → Nat} {e : TriggerEvent} (h : Joint f alone) (hdet : AllDeterministic f)
    (hρ : ∀ i : Fin n, OnlyMachine i (ρ i))
    (hstep : ∀ i, (alone i).processEvent (e.rename (ρ i)) = .ok (alone' i))
    (hzero : ZeroApart alone') :
    ∃ f', f.processEvent e = .ok f' ∧ Joint f' alone' := by
  have hturn (i : Fin n) :
      Turn (e.rename (ρ i)) f.blockedFor ((alone i).recorded e) 0 (alone' i) := by
    have ht := processEvent_sole (h.sole i).1 (hstep i)
    rwa [rename_recorded, (recorded_shared (h.beside i).shared e).2] at ht
  have hstart : Joint (f.recorded e) fun i => (alone i).recorded e := by
    have hflags : setElsewhere (fun i => (alone i).recorded e) = setElsewhere alone := by
      funext i
      simp only [setElsewhere, recorded_flags]
    refine ⟨by rw [recorded_runtime, h.size], fun i => ?_, fun i => ?_,
      by rw [recorded_pending, h.quiet]⟩
    · rw [recorded_runtime, recorded_actions]
      exact h.sole i
    · rw [hflags]
      exact (h.beside i).recorded e
  have hdet' : AllDeterministic (f.recorded e) := fun i m hm =>
    hdet i m ((shape_eq (recorded_shape f e)).1 ▸ hm)
  obtain ⟨f', hf', _, hjoint⟩ := hstart.turns hdet' hρ hturn hzero (Nat.le_refl n)
  refine ⟨f', ?_, by simpa using hjoint⟩
  rw [processEvent_eq, eachMachine, recorded_runtime, h.size]
  exact hf'

theorem Joint.events {f : Framework R T D} {alone alone' : Fin n → Framework R T D}
    {ρ : Fin n → Nat → Nat} {events : List TriggerEvent} (h : Joint f alone)
    (hdet : AllDeterministic f) (hρ : ∀ i : Fin n, OnlyMachine i (ρ i))
    (hstep : ∀ i, (alone i).processEvents (events.map (·.rename (ρ i))) = .ok (alone' i))
    (hzero : ZeroApart alone') :
    ∃ f', f.processEvents events = .ok f' ∧ Joint f' alone' := by
  induction events generalizing f alone with
  | nil =>
    have hsame : alone = alone' := by
      funext i
      simpa [processEvents] using hstep i
    exact ⟨f, rfl, hsame ▸ h⟩
  | cons e es ih =>
    simp only [processEvents, List.map_cons, List.foldlM_cons, bind_ok] at hstep
    choose mid hfirst hrest using hstep
    obtain ⟨g, hg, hjoint⟩ :=
      h.event hdet hρ hfirst (hzero.le fun i => processEvents_flags (hrest i))
    have hdet' : AllDeterministic g := fun i m hm =>
      hdet i m ((shape_eq (processEvent_shape hg)).1 ▸ hm)
    obtain ⟨f', hf', hjoint'⟩ := ih hjoint hdet' hrest
    refine ⟨f', ?_, hjoint'⟩
    rw [processEvents, List.foldlM_cons]
    exact (bind_eq hg).trans hf'

/-- The actions for machine `i`, as it would get them alone. -/
def returnedTo (i : Nat) (actions : List (TriggerAction D)) : List (TriggerAction D) :=
  (actions.filter (·.machine = i)).map (·.withMachine 0)

omit [RngCore R] [Time.Duration D] [Time.Instant T D] in
/-- The action for a machine among those in the machines' places. -/
theorem filter_machine {xs : List (Option (TriggerAction D))} {k : Nat}
    (h : ∀ j a, xs[j]? = some (some a) → a.machine = k + j) (i : Nat) :
    (xs.filterMap id).filter (·.machine = k + i) = xs[i]?.join.toList := by
  induction xs generalizing k i with
  | nil => simp
  | cons x xs ih =>
    have hrest : ∀ j a, xs[j]? = some (some a) → a.machine = k + 1 + j := fun j a ha => by
      rw [h (j + 1) a ha]
      omega
    have hhead (a) (ha : x = some a) : a.machine = k := h 0 a (by simp [ha])
    cases i with
    | zero =>
      have hnone : (xs.filterMap id).filter (·.machine = k + 0) = [] := by
        refine List.filter_eq_nil_iff.mpr fun a ha => ?_
        obtain ⟨b, hb, rfl⟩ : ∃ b, b ∈ xs ∧ b = some a := by simpa using ha
        obtain ⟨j, hj⟩ := List.getElem?_of_mem hb
        have := hrest j a hj
        simp only [decide_eq_true_eq]
        omega
      cases x with
      | none => simpa using hnone
      | some a => simpa [hhead a rfl] using hnone
    | succ i =>
      have hi := ih hrest i
      rw [show k + 1 + i = k + (i + 1) by omega] at hi
      cases x with
      | none => simpa using hi
      | some a =>
        have hne : a.machine ≠ k + (i + 1) := fun he =>
          absurd ((hhead a rfl).symm.trans he) (by simp)
        simpa [hne] using hi

omit [RngCore R] [Time.Duration D] [Time.Instant T D] in
theorem Joint.returned {f : Framework R T D} {alone : Fin n → Framework R T D}
    (h : Joint f alone) (hlabelled : Labelled f) (i : Fin n) :
    returnedTo i (f.actions.filterMap id) = (alone i).actions.filterMap id := by
  have hfilter := filter_machine (k := 0) (fun j a ha => by simpa using hlabelled j a ha) i.val
  rw [Nat.zero_add] at hfilter
  rw [returnedTo, hfilter]
  obtain ⟨b, hb⟩ := List.length_eq_one_iff.mp (h.sole i).2
  have hslot := (h.beside i).actions
  rw [hb, List.getElem?_cons_zero] at hslot
  obtain ⟨a, ha, rfl⟩ := Option.map_eq_some_iff.mp hslot.symm
  rw [hb, ha]
  cases a <;> rfl

omit [RngCore R] [Time.Duration D] [Time.Instant T D] in
theorem Joint.start {f : Framework R T D} {alone : Fin n → Framework R T D} (h : Joint f alone)
    (now : T) : Joint (f.startCall now) fun i => (alone i).startCall now := by
  refine ⟨h.size, fun i => ?_, fun i => ?_, h.quiet⟩
  · simpa [startCall] using h.sole i
  · have hold := h.beside i
    have hshared : ((alone i).startCall now).shared = (f.startCall now).shared := by
      have hs := hold.shared
      simp only [shared, startCall, Prod.mk.injEq] at hs ⊢
      exact ⟨trivial, hs.2⟩
    refine ⟨hold.machines, hold.runtime, ?_, hshared, hold.quiet, ?_⟩
    · simp only [startCall, List.getElem?_map, hold.actions, Option.map_map]
      rfl
    · simp [startCall, setElsewhere, orFlags]

/-- The same calls for machine `i` alone. -/
def renamed (ρ : Nat → Nat) (calls : List (List TriggerEvent × T)) :
    List (List TriggerEvent × T) :=
  calls.map fun c => (c.1.map (·.rename ρ), c.2)

theorem deliverSignal_quiet {f : Framework R T D} (h : f.signalPending = none) :
    f.deliverSignal = .ok f := by
  unfold deliverSignal
  rw [h]
  rfl

theorem deliverSignal_flags {f f' : Framework R T D} (h : f.deliverSignal = .ok f') :
    LeFlags f.counterZeroedOnce f'.counterZeroedOnce :=
  deliverSignal_keeps (P := fun g => LeFlags f.counterZeroedOnce g.counterZeroedOnce)
    (fun _ hg => hg) (fun _ _ _ _ hg hm => hg.trans hm.flags) (LeFlags.refl _) h

theorem Joint.call {f : Framework R T D} {alone alone' : Fin n → Framework R T D}
    {ρ : Fin n → Nat → Nat} {events : List TriggerEvent} {now : T}
    {actions : Fin n → List (TriggerAction D)} (h : Joint f alone) (hdet : AllDeterministic f)
    (hρ : ∀ i : Fin n, OnlyMachine i (ρ i))
    (hstep : ∀ i, (alone i).triggerEvents (events.map (·.rename (ρ i))) now =
      .ok (actions i, alone' i))
    (hzero : ZeroApart alone') :
    ∃ acts f', f.triggerEvents events now = .ok (acts, f') ∧ Joint f' alone' ∧
      ∀ i : Fin n, returnedTo i acts = actions i := by
  choose g hg hd hactions using fun i => triggerEvents_ok (hstep i)
  obtain ⟨f', hf', hjoint⟩ := (h.start now).events hdet hρ hg
    (hzero.le fun i => deliverSignal_flags (hd i))
  obtain rfl : g = alone' := by
    funext i
    exact Except.ok.inj ((deliverSignal_quiet (hjoint.beside i).quiet.2).symm.trans (hd i))
  have hcall : f.triggerEvents events now = .ok (f'.actions.filterMap id, f') :=
    (bind_eq hf').trans (bind_eq (deliverSignal_quiet hjoint.quiet))
  refine ⟨_, f', hcall, hjoint, fun i => ?_⟩
  rw [hjoint.returned (call_labelled hcall) i, hactions i]

/-- What machine `i` does in a run with others is what it does alone, as long as after
every call no counter has been zeroed in two of the runs. -/
theorem Joint.run {f : Framework R T D} {alone alone' : Fin n → Framework R T D}
    {ρ : Fin n → Nat → Nat} {calls : List (List TriggerEvent × T)}
    {actions : Fin n → List (List (TriggerAction D))} (h : Joint f alone)
    (hdet : AllDeterministic f) (hρ : ∀ i : Fin n, OnlyMachine i (ρ i))
    (hstep : ∀ i, (alone i).run (renamed (ρ i) calls) = .ok (actions i, alone' i))
    (hzero : ∀ cs, cs <+: calls → ∀ (acts : Fin n → List (List (TriggerAction D)))
      (g : Fin n → Framework R T D), (∀ i, (alone i).run (renamed (ρ i) cs) = .ok (acts i, g i)) → ZeroApart g) :
    ∃ acts f', f.run calls = .ok (acts, f') ∧ Joint f' alone' ∧
      ∀ i : Fin n, acts.map (returnedTo i) = actions i := by
  induction calls generalizing f alone actions with
  | nil =>
    have hsame (i : Fin n) : actions i = [] ∧ alone i = alone' i := by
      have hi := pure_ok.mp (hstep i)
      exact ⟨(congrArg Prod.fst hi).symm, congrArg Prod.snd hi⟩
    obtain rfl : alone = alone' := funext fun i => (hsame i).2
    exact ⟨[], f, rfl, h, fun i => (hsame i).1.symm⟩
  | cons c cs ih =>
    have hcalls (i : Fin n) : ∃ a g rest, (alone i).triggerEvents
        (c.1.map (·.rename (ρ i))) c.2 = .ok (a, g) ∧
        g.run (renamed (ρ i) cs) = .ok (rest, alone' i) ∧ actions i = a :: rest := by
      have hi := hstep i
      simp only [renamed, List.map_cons, Framework.run, bind_ok] at hi
      obtain ⟨⟨a, g⟩, hc, ⟨rest, g'⟩, hr, hi⟩ := hi
      obtain ⟨ha, rfl⟩ : a :: rest = actions i ∧ g' = alone' i := by simpa using hi
      exact ⟨a, g, rest, hc, hr, ha.symm⟩
    choose a g rest hc hr ha using hcalls
    have hfirst : ZeroApart g := hzero [c] (by simp) (fun i => [a i]) g fun i => by
      simp [renamed, Framework.run, hc i]
    obtain ⟨acts, f1, hf1, hjoint, hacts⟩ := h.call hdet hρ hc hfirst
    have hdet1 : AllDeterministic f1 := fun i m hm =>
      hdet i m ((shape_eq (triggerEvents_shape hf1)).1 ▸ hm)
    have hzero1 : ∀ cs', cs' <+: cs → ∀ (acts : Fin n → List (List (TriggerAction D)))
        (g' : Fin n → Framework R T D), (∀ i, (g i).run (renamed (ρ i) cs') = .ok (acts i, g' i)) → ZeroApart g' := by
      intro cs' hpre acts g' hrun
      refine hzero (c :: cs') (List.cons_prefix_cons.mpr ⟨rfl, hpre⟩) (fun i => a i :: acts i) g'
        fun i => ?_
      exact (bind_eq (hc i)).trans (bind_eq (hrun i))
    obtain ⟨acts', f', hf', hjoint', hacts'⟩ := ih hjoint hdet1 hr hzero1
    refine ⟨acts :: acts', f', (bind_eq hf1).trans (bind_eq hf'), hjoint', fun i => ?_⟩
    rw [List.map_cons, hacts i, hacts' i, ha i]

/-- What machines return and come to in some calls. -/
def playFrom (machines : List Machine) (padding blocking : F64) (start : T) (rng : R)
    (calls : List (List TriggerEvent × T)) :
    Option (List (List (TriggerAction D)) × Framework R T D) :=
  match Framework.new machines padding blocking start rng with
  | .ok (.ok f) => (f.run calls).toOption
  | _ => none

/-- Every machine gets the same actions and comes to the same state as alone. -/
def Isolated (machines : List Machine) (padding blocking : F64) (start : T) (rng : R)
    (ρ : Nat → Nat → Nat) (calls : List (List TriggerEvent × T)) : Prop :=
  ∃ r : List (List (TriggerAction D)) × Framework R T D,
    playFrom machines padding blocking start rng calls = some r ∧
      ∀ i m, machines[i]? = some m → ∃ r' : List (List (TriggerAction D)) × Framework R T D,
        playFrom [m] padding blocking start rng (renamed (ρ i) calls) = some r' ∧
          r.1.map (returnedTo i) = r'.1 ∧ r.2.runtime[i]? = r'.2.runtime[0]?

/-- No two machines, each alone, have zeroed the same counter in the last call. -/
def ZeroedApart (D : Type) [Time.Duration D] [Time.Instant T D] (machines : List Machine)
    (padding blocking : F64) (start : T) (rng : R) (ρ : Nat → Nat → Nat)
    (calls : List (List TriggerEvent × T)) : Prop :=
  ∀ i j mi mj, ∀ ri rj : List (List (TriggerAction D)) × Framework R T D, i ≠ j →
    machines[i]? = some mi → machines[j]? = some mj →
    playFrom [mi] padding blocking start rng (renamed (ρ i) calls) = some ri →
    playFrom [mj] padding blocking start rng (renamed (ρ j) calls) = some rj →
    ApartFlags ri.2.counterZeroedOnce rj.2.counterZeroedOnce

/-- The runtime a machine starts with, its limit sampled from some source. -/
def limited (rng : R) (p : MachineRuntime T D × Machine) : MachineRuntime T D :=
  match (p.2.states[0]?).bind (·.action) with
  | none => p.1
  | some action => { p.1 with stateLimit := (action.sampleLimit rng).1 }

omit [Time.Duration D] [Time.Instant T D] in
theorem startLimit_runtime {started : List (MachineRuntime T D × Machine)} (rng : R)
    (hdet : ∀ p ∈ started, p.2.Deterministic R) {acc acc' : List (MachineRuntime T D) × R}
    (h : started.foldlM startLimit acc = .ok acc') :
    acc'.1 = acc.1 ++ started.map (limited rng) := by
  induction started generalizing acc with
  | nil =>
    obtain rfl : acc = acc' := by simpa using h
    simp
  | cons p ps ih =>
    rw [List.foldlM_cons, bind_ok] at h
    obtain ⟨acc1, hp, hps⟩ := h
    rw [ih (fun q hq => hdet q (List.mem_cons_of_mem _ hq)) hps]
    simp only [startLimit, bind_ok, Machine.stateAt, at?_ok] at hp
    obtain ⟨st, hst, hp⟩ := hp
    have hfirst : acc1.1 = acc.1 ++ [limited rng p] := by
      cases ha : st.action with
      | none =>
        rw [ha] at hp
        obtain rfl := pure_ok.mp hp
        simp [limited, hst, ha]
      | some a =>
        have hlimit := Action.sampleLimit_eq (a := a) (fun d hd =>
          (hdet p List.mem_cons_self).dists st (List.mem_of_getElem? hst) d
            (by simp [State.dists, ha, hd])) acc.2 rng
        rw [ha] at hp
        obtain rfl := pure_ok.mp hp
        simp [limited, hst, ha, hlimit]
    rw [hfirst, List.map_cons, List.append_assoc, List.singleton_append]

omit [Time.Instant T D] in
/-- At the start every machine is where it is alone. -/
theorem new_joint {machines : List Machine} {padding blocking : F64} {start : T} {rng : R}
    {f : Framework R T D} {alone : Fin machines.length → Framework R T D}
    (hdet : ∀ m ∈ machines, m.Deterministic R)
    (hnew : Framework.new machines padding blocking start rng = .ok (.ok f))
    (halone : ∀ i, Framework.new [machines[i]] padding blocking start rng = .ok (.ok (alone i))) :
    Joint f alone := by
  obtain ⟨_, _, _, started, hs, rfl⟩ := new_ok.mp hnew
  have hrt := startLimit_runtime rng (fun p hp => hdet p.2 (List.of_mem_zip hp).2) hs
  have hone (i : Fin machines.length) : ∃ r, alone i = fresh [machines[i]] padding blocking start
      ([limited rng (startRuntime start machines[i], machines[i])], r) := by
    obtain ⟨_, _, _, started', hs', he⟩ := new_ok.mp (halone i)
    have hrt' := startLimit_runtime rng (fun p hp => hdet p.2 (by
      obtain rfl : p = _ := by simpa using hp
      exact List.getElem_mem _)) hs'
    exact ⟨started'.2, he.trans (congrArg _ (Prod.ext hrt' rfl))⟩
  choose r hr using hone
  obtain rfl := funext hr
  refine ⟨?_, fun i => ⟨rfl, rfl⟩, fun i => ⟨?_, ?_, ?_, rfl, ⟨rfl, rfl⟩, ?_⟩, rfl⟩
  · simp [fresh, hrt]
  · simp [fresh]
  · simp [fresh, hrt]
  · simp [fresh]
  · simp [fresh, setElsewhere, orFlags]

theorem playFrom_eq_some {machines : List Machine} {padding blocking : F64} {start : T} {rng : R}
    {calls : List (List TriggerEvent × T)} {r : List (List (TriggerAction D)) × Framework R T D} :
    playFrom machines padding blocking start rng calls = some r ↔
      ∃ f, Framework.new machines padding blocking start rng = .ok (.ok f) ∧
        f.run calls = .ok r := by
  unfold playFrom
  split
  · rename_i f hf
    rw [hf, toOption_eq_some]
    constructor
    · exact fun h => ⟨f, rfl, h⟩
    · rintro ⟨g, hg, h⟩
      obtain rfl : f = g := by simpa using hg
      exact h
  · rename_i hno
    constructor
    · exact fun h => absurd h (by simp)
    · rintro ⟨g, hg, _⟩
      exact absurd hg (hno g)

/-- Deterministic machines that do not signal are isolated from each other, as long as in
no call two of them zero the same counter. -/
theorem machines_isolated {machines : List Machine} {padding blocking : F64} {start : T} {rng : R}
    {f : Framework R T D} (hdet : ∀ m ∈ machines, m.Deterministic R)
    (hnew : Framework.new machines padding blocking start rng = .ok (.ok f))
    {ρ : Nat → Nat → Nat} (hρ : ∀ i, OnlyMachine i (ρ i)) {calls : List (List TriggerEvent × T)}
    (hzero : ∀ cs, cs <+: calls → ZeroedApart D machines padding blocking start rng ρ cs) :
    ∀ cs, cs <+: calls →
      Isolated (R := R) (T := T) (D := D) machines padding blocking start rng ρ cs := by
  intro cs hcs
  obtain ⟨hp, hb, hv, _⟩ := new_ok.mp hnew
  have hvalid (i : Fin machines.length) : ∀ m ∈ [machines[i]], m.validate R = .ok () :=
    fun m hm => hv m (List.mem_singleton.mp hm ▸ List.getElem_mem _)
  choose alone halone using fun i => new_total (D := D) hp hb (hvalid i) start rng
  choose actions alone' hrun using fun i =>
    run_total (new_wellFormed (halone i)).1 (new_wellFormed (halone i)).2.1 (renamed (ρ i) cs)
  have hplay (i : Fin machines.length) (calls) (r) (h : (alone i).run (renamed (ρ i) calls) = .ok r) :
      playFrom [machines[i]] padding blocking start rng (renamed (ρ i) calls) = some r :=
    playFrom_eq_some.mpr ⟨alone i, halone i, h⟩
  have hdetf : AllDeterministic f := fun i m hm =>
    hdet m ((new_wellFormed hnew).2.2 ▸ List.mem_of_getElem? hm)
  obtain ⟨acts, f', hf', hjoint, hacts⟩ := (new_joint hdet hnew halone).run hdetf (fun i => hρ i) hrun
    fun cs' hpre acts g hg i j hij =>
      hzero cs' (hpre.trans hcs) i j _ _ _ _ (fun he => hij (Fin.ext he))
        (List.getElem?_eq_getElem i.isLt) (List.getElem?_eq_getElem j.isLt) (hplay i cs' _ (hg i))
        (hplay j cs' _ (hg j))
  refine ⟨(acts, f'), playFrom_eq_some.mpr ⟨f, hnew, hf'⟩, fun i m hm => ?_⟩
  obtain ⟨hi, rfl⟩ := List.getElem?_eq_some_iff.mp hm
  exact ⟨_, hplay ⟨i, hi⟩ cs _ (hrun ⟨i, hi⟩), hacts ⟨i, hi⟩, (hjoint.beside ⟨i, hi⟩).runtime.symm⟩

/-- The names of a machine's events when the machine runs alone. -/
def only (i j : Nat) : Nat := if j = i then 0 else j + 1

theorem onlyMachine_only (i : Nat) : OnlyMachine i (only i) := by
  intro j
  by_cases hj : j = i <;> simp [only, hj]

/-- No transition, or a certain one that is no signal. -/
def isCertain : Option (List Trans) → Bool
  | none => true
  | some [t] => decide (t.prob.val = .fin 1 ∧ t.state ≠ stateSignal)
  | some _ => false

theorem deterministic_of_certain {m : Machine}
    (ht : ∀ st ∈ m.states, ∀ i : Fin eventNum, isCertain (st.transitions.get i) = true)
    (hd : ∀ st ∈ m.states, st.dists = []) : m.Deterministic R := by
  refine ⟨?_, ?_⟩
  · intro st hst i vector hv
    have hi := ht st hst i
    rw [hv] at hi
    cases vector with
    | nil => exact absurd hi (by simp [isCertain])
    | cons t ts =>
      cases ts with
      | nil => exact ⟨t, rfl, by simpa [isCertain] using hi⟩
      | cons => exact absurd hi (by simp [isCertain])
  · intro st hst d hmem
    rw [hd st hst] at hmem
    exact absurd hmem (by simp)

/-- A machine whose first counter goes up at a packet and back to zero at the next. -/
def zeroer : Machine :=
  .free [
    .new fun
      | .normalSent => certain 1
      | _ => [],
    { State.new (fun
        | .normalSent => certain 2
        | _ => []) with counter := (some ⟨.increment, none, false⟩, none) },
    { State.new (fun
        | .counterZero => certain 0
        | _ => []) with counter := (some ⟨.decrement, none, false⟩, none) }]

/-- A machine that enters its only state again at every packet. -/
def pacer : Machine :=
  .free [.new fun
    | .normalSent => certain 0
    | _ => []]

theorem zeroer_deterministic : zeroer.Deterministic Unit :=
  deterministic_of_certain (by decide +kernel) (by decide +kernel)

theorem pacer_deterministic : pacer.Deterministic Unit :=
  deterministic_of_certain (by decide +kernel) (by decide +kernel)

/-- Of two machines that both zero a counter in one call only the first hears of it. -/
theorem zeroers_not_isolated :
    (∀ m ∈ [zeroer, zeroer], m.Deterministic Unit) ∧ (∀ i, OnlyMachine i (only i)) ∧
      (playFrom (D := Duration) [zeroer, zeroer] ⟨0⟩ ⟨0⟩ (0 : Instant) () []).isSome ∧
      ¬ Isolated (D := Duration) [zeroer, zeroer] ⟨0⟩ ⟨0⟩ (0 : Instant) () only
        [([.normalSent, .normalSent], 0)] := by
  refine ⟨by simpa using zeroer_deterministic, onlyMachine_only, by decide +kernel, ?_⟩
  rintro ⟨r, hr, hmachines⟩
  obtain ⟨r', hr', _, hruntime⟩ := hmachines 1 zeroer rfl
  have hbeside : (playFrom (D := Duration) [zeroer, zeroer] ⟨0⟩ ⟨0⟩ (0 : Instant) ()
      [([.normalSent, .normalSent], 0)]).map (fun r => r.2.runtime[1]?.map (·.currentState)) =
        some (some 2) := by decide +kernel
  have halone : (playFrom (D := Duration) [zeroer] ⟨0⟩ ⟨0⟩ (0 : Instant) ()
      (renamed (only 1) [([.normalSent, .normalSent], 0)])).map
        (fun r => r.2.runtime[0]?.map (·.currentState)) = some (some 0) := by decide +kernel
  rw [hr, Option.map_some, hruntime] at hbeside
  rw [hr', Option.map_some] at halone
  exact absurd (halone.symm.trans hbeside) (by decide)

/-- The same machine beside one without counters. -/
theorem zeroer_isolated :
    Isolated (D := Duration) [zeroer, pacer] ⟨0⟩ ⟨0⟩ (0 : Instant) () only
      [([.normalSent, .normalSent, .paddingSent 1], 0)] := by
  have hnew : ((Framework.new (D := Duration) [zeroer, pacer] ⟨0⟩ ⟨0⟩ (0 : Instant) ()).toOption.bind
      Except.toOption).isSome := by decide +kernel
  obtain ⟨f, hf⟩ := Option.isSome_iff_exists.mp hnew
  simp only [Option.bind_eq_some_iff, toOption_eq_some] at hf
  obtain ⟨_, hf, rfl⟩ := hf
  refine machines_isolated (by simpa using ⟨zeroer_deterministic, pacer_deterministic⟩) hf
    onlyMachine_only ?_ _ List.prefix_rfl
  intro cs hcs i j mi mj ri rj hij hmi hmj hri hrj
  have hpacer : ∀ cs ∈ [([.normalSent, .normalSent, .paddingSent 1], (0 : Instant))].inits,
      (playFrom (D := Duration) [pacer] ⟨0⟩ ⟨0⟩ (0 : Instant) () (renamed (only 1) cs)).map
        (·.2.counterZeroedOnce) = some (false, false) := by decide +kernel
  have hquiet (m : Machine) (r : List (List (TriggerAction Duration)) × Framework Unit Instant Duration)
      (hm : [zeroer, pacer][1]? = some m)
      (hr : playFrom [m] ⟨0⟩ ⟨0⟩ 0 () (renamed (only 1) cs) = some r) :
      r.2.counterZeroedOnce = (false, false) := by
    obtain rfl : pacer = m := Option.some.inj hm
    have hflags := hpacer cs ((List.mem_inits _ _).mpr hcs)
    rw [hr] at hflags
    exact Option.some.inj hflags
  have hi : i < 2 := (List.getElem?_eq_some_iff.mp hmi).1
  have hj : j < 2 := (List.getElem?_eq_some_iff.mp hmj).1
  obtain rfl | rfl : i = 1 ∨ j = 1 := by omega
  · simp [hquiet mi ri hmi hri, ApartFlags]
  · simp [hquiet mj rj hmj hrj, ApartFlags]

end Maybenot.Framework

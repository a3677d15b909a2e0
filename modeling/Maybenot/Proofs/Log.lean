import Maybenot.Proofs.Calls

namespace Maybenot

/-- The machine that made a step. -/
def Step.machine : Step → Nat
  | .performed mi _ | .sampled mi _ | .entered mi _ _ | .scheduled mi _ _ => mi

namespace Framework
open Lib

/-- The machines that sampled `STATE_SIGNAL`, in order. -/
def senders (log : List Step) : List Nat :=
  log.filterMap fun
    | .sampled mi s => if s = stateSignal then some mi else none
    | _ => none

/-- How often a machine performed a transition on a signal. -/
def heard (mi : Nat) (log : List Step) : Nat := log.count (.performed mi .signal)

@[simp] theorem senders_append (v w : List Step) : senders (v ++ w) = senders v ++ senders w :=
  List.filterMap_append

@[simp] theorem heard_append (mi : Nat) (v w : List Step) :
    heard mi (v ++ w) = heard mi v + heard mi w := List.count_append

theorem heard_performed (j mi : Nat) (event : Event) :
    heard j [.performed mi event] = if j = mi ∧ event = .signal then 1 else 0 := by
  simp only [heard, List.count_singleton, beq_iff_eq, Step.performed.injEq, eq_comm (a := mi)]

/-- The pending signal after the machines of a list have signalled. -/
def raiseAll (pending : Option SignalTarget) (xs : List Nat) : Option SignalTarget :=
  xs.foldl raiseSignal pending

theorem raiseAll_append (p : Option SignalTarget) (xs ys : List Nat) :
    raiseAll p (xs ++ ys) = raiseAll (raiseAll p xs) ys := List.foldl_append

theorem raiseAll_some (s : SignalTarget) (x : Nat) (xs : List Nat) :
    raiseAll (some s) (x :: xs) = some .all := by
  induction xs generalizing s x with
  | nil => rfl
  | cons y ys ih => exact ih .all y

/-- One signal is for the others, more are for all. -/
theorem raiseAll_none (xs : List Nat) :
    raiseAll none xs = match xs with
      | [] => none
      | [x] => some (.allExcept x)
      | _ :: _ :: _ => some .all := by
  match xs with
  | [] => rfl
  | [x] => rfl
  | x :: y :: ys => exact raiseAll_some _ _ _

theorem raiseAll_eq_none {xs : List Nat} : raiseAll none xs = none ↔ xs = [] := by
  rw [raiseAll_none]
  match xs with
  | [] => simp
  | [x] => simp
  | x :: y :: ys => simp

theorem raiseAll_except {p : Option SignalTarget} {xs : List Nat} {x : Nat}
    (h : raiseAll p xs = some (.allExcept x)) : p = some (.allExcept x) ∨ x ∈ xs := by
  match p, xs with
  | _, [] => exact .inl h
  | none, [y] => simp_all [raiseAll, raiseSignal]
  | none, y :: z :: ys => simp [raiseAll_none] at h
  | some s, y :: ys => simp [raiseAll_some] at h

variable {R T D : Type}

/-- Part of a call: what it adds to the log, which signals that leaves pending, which
machines made steps and how often each machine heard a signal. -/
structure Emits (f f' : Framework R T D) (w : List Step) (who : Nat → Prop) (times : Nat → Nat) :
    Prop where
  log : f'.log = f.log ++ w
  pending : f'.signalPending = raiseAll f.signalPending (senders w)
  who : ∀ s ∈ w, who s.machine
  times : ∀ j, heard j w = times j

namespace Emits

theorem silent {f f' : Framework R T D} {who : Nat → Prop} (hl : f'.log = f.log)
    (hp : f'.signalPending = f.signalPending) : Emits f f' [] who fun _ => 0 :=
  ⟨by simp [hl], hp, by simp, fun _ => rfl⟩

theorem trans {f g h : Framework R T D} {v w : List Step} {who : Nat → Prop} {n m : Nat → Nat}
    (h1 : Emits f g v who n) (h2 : Emits g h w who m) :
    Emits f h (v ++ w) who fun j => n j + m j where
  log := by rw [h2.log, h1.log, List.append_assoc]
  pending := by rw [h2.pending, h1.pending, senders_append, raiseAll_append]
  who s hs := (List.mem_append.mp hs).elim (h1.who s) (h2.who s)
  times j := by rw [heard_append, h1.times, h2.times]

theorem mono {f f' : Framework R T D} {w : List Step} {who who' : Nat → Prop} {n m : Nat → Nat}
    (h : Emits f f' w who n) (hw : ∀ x, who x → who' x) (hn : ∀ j, n j = m j) :
    Emits f f' w who' m :=
  ⟨h.log, h.pending, fun s hs => hw _ (h.who s hs), fun j => (h.times j).trans (hn j)⟩

/-- A stretch that sends and hears nothing, before another. -/
theorem after {f g h : Framework R T D} {v w : List Step} {who who' : Nat → Prop} {n : Nat → Nat}
    (h1 : Emits f g v who' fun _ => 0) (h2 : Emits g h w who n) (hw : ∀ x, who' x → who x) :
    Emits f h (v ++ w) who n :=
  ((h1.mono hw fun _ => rfl).trans h2).mono (fun _ hx => hx) (fun _ => Nat.zero_add _)

/-- A stretch that sends and hears nothing, after another. -/
theorem before {f g h : Framework R T D} {v w : List Step} {who who' : Nat → Prop} {n : Nat → Nat}
    (h1 : Emits f g v who n) (h2 : Emits g h w who' fun _ => 0) (hw : ∀ x, who' x → who x) :
    Emits f h (v ++ w) who n :=
  (h1.trans (h2.mono hw fun _ => rfl)).mono (fun _ hx => hx) (fun _ => rfl)

/-- Scheduling an action sends and hears nothing. -/
theorem schedule [RngCore R] [Time.Duration D] {f g : Framework R T D} {v : List Step}
    {mi : Nat} {n : Nat → Nat} (h : Emits f g v (· = mi) n) (s limit : Nat) (st : State)
    (allowed : Bool) : ∃ w, Emits f (g.schedule mi s limit st allowed) w (· = mi) n := by
  cases allowed with
  | false => exact ⟨v, h⟩
  | true =>
    have hplace : Emits g (g.schedule mi s limit st true) [.scheduled mi s limit]
        (· = mi) fun _ => 0 := by
      refine ⟨?_, ?_, by simp [Step.machine], fun _ => rfl⟩
      all_goals
        simp only [Framework.schedule, if_true, placeAction]
        split <;> rfl
    exact ⟨_, h.before hplace fun _ hx => hx⟩

variable [RngCore R]

theorem sampleNext (f : Framework R T D) (mi : Nat) (event : Event) (st : State) :
    Emits f (f.sampleNext mi event st) [.performed mi event] (· = mi)
      fun j => if j = mi ∧ event = .signal then 1 else 0 :=
  ⟨rfl, rfl, by simp [Step.machine], fun j => heard_performed j mi event⟩

theorem signal (f : Framework R T D) (mi : Nat) (event : Event) (st : State) :
    Emits f { (f.sampleNext mi event st).note (.sampled mi stateSignal) with
      signalPending := raiseSignal f.signalPending mi }
      ([.performed mi event] ++ [.sampled mi stateSignal]) (· = mi)
      fun j => if j = mi ∧ event = .signal then 1 else 0 := by
  refine ⟨?_, ?_, ?_, fun j => heard_performed j mi event⟩
  · simp [Framework.sampleNext, note]
  · simp [senders, raiseAll]
  · simp [Step.machine]

theorem stop (f : Framework R T D) (mi : Nat) (event : Event) (st : State)
    (rt : MachineRuntime T D) :
    Emits f (((f.sampleNext mi event st).note (.sampled mi stateEnd)).setRuntime mi rt)
      ([.performed mi event] ++ [.sampled mi stateEnd]) (· = mi)
      fun j => if j = mi ∧ event = .signal then 1 else 0 := by
  have hs : senders [.performed mi event, .sampled mi stateEnd] = [] := by
    simp [senders, stateEnd, stateSignal]
  refine ⟨?_, ?_, ?_, fun j => heard_performed j mi event⟩
  · simp [Framework.sampleNext, note, setRuntime]
  · exact congrArg (raiseAll _) hs.symm
  · simp [Step.machine]

theorem enterState (f : Framework R T D) (mi s : Nat) (rt : MachineRuntime T D) (st : State) :
    Emits f (f.enterState mi rt s st) [] (fun _ => False) fun _ => 0 := by
  refine silent ?_ ?_
  all_goals
    unfold Framework.enterState
    split
    · rfl
    · split <;> rfl

theorem arrive {f : Framework R T D} {mi s limit : Nat} {rt : MachineRuntime T D} {st : State}
    (hs : s ≠ stateSignal) :
    Emits f (f.arrive mi s rt st limit) [.sampled mi s, .entered mi s limit] (· = mi)
      fun _ => 0 := by
  have hin := enterState (f.note (.sampled mi s)) mi s rt st
  refine ⟨?_, ?_, by simp [Step.machine], fun _ => rfl⟩
  · change _ ++ [Step.entered mi s limit] = _
    rw [hin.log]
    simp [note]
  · rw [show senders [.sampled mi s, .entered mi s limit] = [] by simp [senders, hs]]
    exact hin.pending

theorem arrived_log {f f1 : Framework R T D} {mi s limit : Nat} {event : Event}
    {rt : MachineRuntime T D} {cur st : State}
    (hin : f1 = (f.sampleNext mi event cur).arrive mi s rt st limit) :
    f1.log = f.log ++ [.performed mi event, .sampled mi s, .entered mi s limit] := by
  have hlog := (enterState ((f.sampleNext mi event cur).note (.sampled mi s)) mi s rt st).log
  subst hin
  change _ ++ [Step.entered mi s limit] = _
  rw [hlog]
  simp [Framework.sampleNext, note]

/-- A transition into a real state, up to the counters. -/
theorem counted {f f1 : Framework R T D} {mi s limit : Nat} {event : Event}
    {rt rt' : MachineRuntime T D} {cur st : State} (hs : s ≠ stateSignal)
    (hin : f1 = (f.sampleNext mi event cur).arrive mi s rt st limit) :
    ∃ w, Emits f (f1.applyCounters mi rt' st).2 w (· = mi)
      fun j => if j = mi ∧ event = .signal then 1 else 0 := by
  subst hin
  have hcount : Emits ((f.sampleNext mi event cur).arrive mi s rt st limit)
      (((f.sampleNext mi event cur).arrive mi s rt st limit).applyCounters mi rt' st).2 []
      (fun _ => False) fun _ => 0 := silent rfl rfl
  exact ⟨_, ((sampleNext f mi event cur).before (arrive hs) (by simp)).before hcount (by simp)⟩

end Emits

variable [RngCore R] [Time.Duration D] [Time.Instant T D]

/-- A transition hears a signal exactly if it is made on one. -/
theorem Moves.emits {f f' : Framework R T D} {mi : Nat} {event : Event} {c : StateChange}
    (h : Moves f mi event c f') :
    ∃ w, Emits f f' w (· = mi) fun j => if j = mi ∧ event = .signal then 1 else 0 := by
  induction h with
  | ended hrt hend =>
    exact ⟨[.performed _ _], rfl, rfl, by simp [Step.machine], fun j => heard_performed j _ _⟩
  | idle hrt hne hcur hs => exact ⟨_, Emits.sampleNext _ _ _ _⟩
  | stop hrt hne hcur hs =>
    exact ⟨_, Emits.stop _ _ _ _ _⟩
  | signal hrt hne hcur hs =>
    exact ⟨_, Emits.signal _ _ _ _⟩
  | enter hrt hne hcur hs hreal hst hin hrt' hm hbelow hz hlen =>
    obtain ⟨v, hv⟩ := Emits.counted hreal.2 hin
    exact hv.schedule _ _ _ _
  | chain hrt hne hcur hs hreal hst hin hrt' hm hbelow hz hnest ha hafter ih =>
    obtain ⟨u, hu⟩ := Emits.counted hreal.2 hin
    obtain ⟨v, hv⟩ := ih
    exact (hu.before (hv.mono (fun _ hx => hx) (by simp)) (fun _ hx => hx)).schedule _ _ _ _

theorem event_ne_signal (e : TriggerEvent) : e.event ≠ .signal := by
  cases e <;> simp [TriggerEvent.event]

/-- While events are processed nobody hears a signal. -/
theorem Turn.emits {e : TriggerEvent} {blocked : D} {f f' : Framework R T D} {mi : Nat}
    (h : Turn e blocked f mi f') :
    ∃ w, Emits f f' w (fun x => x = mi ∧ mi < f.runtime.length) fun _ => 0 := by
  have hmove {g g' : Framework R T D} {event : Event} {c : StateChange} (hne : event ≠ .signal)
      (hlen : mi < f.runtime.length) (hm : Moves g mi event c g') :
      ∃ w, Emits g g' w (fun x => x = mi ∧ mi < f.runtime.length) fun _ => 0 := by
    obtain ⟨w, hw⟩ := hm.emits
    exact ⟨w, hw.mono (fun _ hx => ⟨hx, hlen⟩) (by simp [hne])⟩
  have hset (g : Framework R T D) (rt : MachineRuntime T D) :
      Emits g (g.setRuntime mi rt) [] (fun x => x = mi ∧ mi < f.runtime.length) fun _ => 0 :=
    .silent rfl rfl
  cases h with
  | apart hc => exact ⟨_, .silent rfl rfl⟩
  | moved hc hrt hm hrt' hkeep =>
    obtain ⟨w, hw⟩ := hmove (event_ne_signal e) (List.getElem?_eq_some_iff.mp hrt).1 hm
    exact ⟨_, (hset f _).after hw fun _ hx => hx⟩
  | used hc hrt hl hm hrt' hne hst hu =>
    obtain ⟨w, hw⟩ := hmove (event_ne_signal e) (List.getElem?_eq_some_iff.mp hrt).1 hm
    exact ⟨_, ((hset f _).after hw fun _ hx => hx).before (hset _ _) fun _ hx => hx⟩
  | reached hc hrt hl hm hrt' hne hst hu hlen hm' =>
    have hlen' := (List.getElem?_eq_some_iff.mp hrt).1
    obtain ⟨v, hv⟩ := hmove (event_ne_signal e) hlen' hm
    obtain ⟨w, hw⟩ := hmove (by simp) hlen' hm'
    have hclear (g : Framework R T D) (rt : MachineRuntime T D) :
        Emits g (g.cleared mi rt) [] (fun x => x = mi ∧ mi < f.runtime.length) fun _ => 0 :=
      .silent rfl rfl
    exact ⟨_, (((hset f _).after hv fun _ hx => hx).before (hclear _ _) fun _ hx => hx).before hw
      fun _ hx => hx⟩

omit [RngCore R] in
theorem recorded_emits (f : Framework R T D) (e : TriggerEvent) (who : Nat → Prop) :
    Emits f (f.recorded e) [] who fun _ => 0 := by
  cases e with
  | blockingBegin _ | blockingEnd =>
    simp only [recorded]
    split <;> exact .silent rfl rfl
  | _ => exact .silent rfl rfl

omit [RngCore R] [Time.Duration D] [Time.Instant T D] in
/-- A loop of silent steps is silent. -/
theorem foldlM_emits {step : Framework R T D → α → Exec (Framework R T D)} {who : Nat → Prop}
    {xs : List α} {f f' : Framework R T D}
    (hstep : ∀ g, g.shape = f.shape → ∀ x ∈ xs, ∀ g', step g x = .ok g' →
      g'.shape = g.shape ∧ ∃ w, Emits g g' w who fun _ => 0)
    (h : xs.foldlM step f = .ok f') : ∃ w, Emits f f' w who fun _ => 0 := by
  have hkeep := foldlM_keeps
    (P := fun g => g.shape = f.shape ∧ ∃ w, Emits f g w who fun _ => 0) ?_
    ⟨rfl, [], .silent rfl rfl⟩ h
  · exact hkeep.2
  · intro g x hx g' ⟨hg, v, hv⟩ hg'
    obtain ⟨hs, w, hw⟩ := hstep g hg x hx g' hg'
    exact ⟨hs.trans hg, _, hv.after hw fun _ hx => hx⟩

theorem processEvent_emits {f f' : Framework R T D} {e : TriggerEvent}
    (h : f.processEvent e = .ok f') : ∃ w, Emits f f' w (· < f.runtime.length) fun _ => 0 := by
  rw [processEvent_eq] at h
  have hturns : ∃ w, Emits (f.recorded e) f' w (· < f.runtime.length) fun _ => 0 := by
    refine foldlM_emits ?_ h
    intro g hg i _ g' hturn
    have ht := turn_ok hturn
    obtain ⟨w, hw⟩ := ht.emits
    have hlen : g.runtime.length = f.runtime.length :=
      congrArg (·.2.1) (hg.trans (recorded_shape f e))
    exact ⟨ht.apart_of.shape, w, hw.mono (fun x hx => by omega) fun _ => rfl⟩
  obtain ⟨w, hw⟩ := hturns
  exact ⟨_, (recorded_emits f e _).after hw fun _ hx => hx⟩

theorem processEvents_emits {f f' : Framework R T D} {events : List TriggerEvent}
    (h : f.processEvents events = .ok f') :
    ∃ w, Emits f f' w (· < f.runtime.length) fun _ => 0 := by
  refine foldlM_emits ?_ h
  intro g hg e _ g' he
  have hlen : g.runtime.length = f.runtime.length := congrArg (·.2.1) hg
  exact ⟨processEvent_shape he, hlen ▸ processEvent_emits he⟩

/-- Every machine but the excluded one hears one signal. -/
theorem signalAll_emits {f f' : Framework R T D} {excluded : Option Nat}
    (h : f.signalAll excluded = .ok f') :
    f'.shape = f.shape ∧
    ∃ w, Emits f f' w (fun x => x < f.runtime.length ∧ excluded ≠ some x)
      fun j => if j < f.runtime.length ∧ excluded ≠ some j then 1 else 0 := by
  refine foldlM_range (P := fun i g => g.shape = f.shape ∧
    ∃ w, Emits f g w (fun x => x < i ∧ excluded ≠ some x)
      fun j => if j < i ∧ excluded ≠ some j then 1 else 0) ?_ ⟨rfl, [], ?_⟩ h
  · intro i g g' hi ⟨hg, v, hv⟩ hstep
    split at hstep
    · rename_i hex
      obtain rfl := pure_ok.mp hstep
      refine ⟨hg, v, hv.mono (fun x hx => ⟨by omega, hx.2⟩) fun j => ?_⟩
      by_cases hj : j = i
      · simp [hj, hex]
      · have hlt : j < i + 1 ↔ j < i := by omega
        simp only [hlt]
    · rename_i hex
      obtain ⟨c, hm⟩ := transitionOnly_ok hstep
      obtain ⟨w, hw⟩ := hm.emits
      refine ⟨hm.frame.toApart.shape.trans hg, _, ((hv.mono ?_ fun _ => rfl).trans
        (hw.mono ?_ fun _ => rfl)).mono (fun _ hx => hx) fun j => ?_⟩
      · exact fun x hx => ⟨by omega, hx.2⟩
      · rintro x rfl
        exact ⟨Nat.lt_succ_self x, hex⟩
      · by_cases hj : j = i
        · simp [hj, hex]
        · have hlt : j < i + 1 ↔ j < i := by omega
          simp only [hlt, hj, false_and, if_false, add_zero]
  · exact (Emits.silent rfl rfl).mono (fun _ hx => hx) fun j => by simp

omit [RngCore R] [Time.Duration D] [Time.Instant T D] in
theorem Emits.senders_who {f f' : Framework R T D} {w : List Step} {who : Nat → Prop}
    {n : Nat → Nat} (h : Emits f f' w who n) : ∀ x ∈ senders w, who x := by
  intro x hx
  obtain ⟨s, hs, hsx⟩ := List.mem_filterMap.mp hx
  cases s with
  | sampled mi st =>
    obtain ⟨_, rfl⟩ : st = stateSignal ∧ mi = x := by simpa using hsx
    exact h.who _ hs
  | _ => simp at hsx

end Framework

end Maybenot

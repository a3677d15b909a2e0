import Maybenot.Proofs.Alongside
import Maybenot.Proofs.Chain
import Maybenot.Proofs.Signals

namespace Maybenot
open Lib

namespace Framework

variable {R T D : Type}

section Relog

/-- The framework with another log. -/
def relog (l : List Step) (f : Framework R T D) : Framework R T D := { f with log := l }

/-- A framework of the machines beside itself with another log. -/
def Relogged (ms : List Machine) (f g : Framework R T D) : Prop :=
  g.machines = ms ∧ ∃ l, f = g.relog l

variable [RngCore R] [Time.Duration D] [Time.Instant T D]

/-- No function reads the log. -/
theorem relogged_alongside (ms : List Machine) :
    Alongside (R := R) (T := T) (D := D) ms (Relogged ms) (fun rt rt' => rt = rt') where
  machines := by
    rintro f g ⟨hms, l, rfl⟩
    exact ⟨hms, hms⟩
  signal := by
    rintro f g ⟨hms, l, rfl⟩
    rfl
  length := by
    rintro f g ⟨hms, l, rfl⟩
    rfl
  runtimeAt := by
    rintro f g mi ⟨hms, l, rfl⟩
    exact .refl _
  current h := congrArg _ h
  limit h := congrArg _ h
  move s h := h ▸ rfl
  relimit n h := h ▸ rfl
  note := by
    rintro f g s ⟨hms, l, rfl⟩
    exact ⟨hms, l ++ [s], rfl⟩
  draw := by
    rintro f g draw ⟨hms, l, rfl⟩
    exact ⟨hms, l, rfl⟩
  sample event h _ _ := by
    obtain ⟨_, _, rfl⟩ := h
    rfl
  sampleLimit h _ _ _ := by
    obtain ⟨_, _, rfl⟩ := h
    rfl
  ask mi h _ _ _ := by
    obtain ⟨_, _, rfl⟩ := h
    rfl
  setRuntime := by
    rintro f g rt rt' mi ⟨hms, l, rfl⟩ rfl
    exact ⟨hms, l, rfl⟩
  setAction := by
    rintro f g mi a ⟨hms, l, rfl⟩
    unfold setAction
    change Alike _ (if mi < g.actions.length then _ else _) _
    split
    · exact .returned ⟨hms, l, rfl⟩
    · exact .failed _
  below := by
    rintro f g rt rt' m ⟨hms, l, rfl⟩ rfl hm
    rfl
  count := by
    rintro f g rt rt' m st mi ⟨hms, l, rfl⟩ rfl hm hst
    exact ⟨rfl, hms, l, rfl⟩
  actionAt := by
    rintro m st f g mi hm hst hcounts ⟨hms, l, rfl⟩
    exact (Alike.refl _).imp fun a b h => congrArg _ h
  raise := by
    rintro m st event r f g mi hm hst hs ⟨hms, l, rfl⟩
    exact ⟨hms, l, rfl⟩
  take := by
    rintro f g ⟨hms, l, rfl⟩
    exact ⟨hms, l, rfl⟩
  record := by
    rintro f g e ⟨hms, l, rfl⟩
    have hmachines := recorded_apart (fun f : Framework R T D => f.machines)
      (fun _ _ _ _ _ _ => rfl) g e
    refine ⟨hmachines.trans hms, l, ?_⟩
    cases e with
    | blockingBegin _ | blockingEnd =>
      change (if g.blockingActive = true then _ else _) =
        relog l (if g.blockingActive = true then _ else _)
      split <;> rfl
    | _ => rfl
  recordOwn := by
    rintro f g rt rt' e ⟨hms, l, rfl⟩ rfl
    rfl

theorem relog_processEvents {f g : Framework R T D} {events : List TriggerEvent}
    (h : f.processEvents events = .ok g) (l : List Step) :
    ∃ l', (f.relog l).processEvents events = .ok (g.relog l') := by
  have hlogs : Relogged f.machines (f.relog l) f := ⟨rfl, l, rfl⟩
  obtain ⟨_, hg, _, l', rfl⟩ := ((relogged_alongside _).processEvents hlogs events).ok h
  exact ⟨l', hg⟩

theorem relog_deliverSignal {f g : Framework R T D} (h : f.deliverSignal = .ok g)
    (l : List Step) : ∃ l', (f.relog l).deliverSignal = .ok (g.relog l') := by
  have hlogs : Relogged f.machines (f.relog l) f := ⟨rfl, l, rfl⟩
  obtain ⟨_, hg, _, l', rfl⟩ := ((relogged_alongside _).deliverSignal hlogs).ok h
  exact ⟨l', hg⟩

end Relog

end Framework

/-- No state of the machine leads anywhere on the event. -/
def Machine.deaf (m : Machine) (event : Event) : Bool :=
  m.states.all fun st => (st.transitions.get event.toUsize).isNone

/-- The events that are not counted, by the framework or by a limit. -/
def TriggerEvent.uncounted : TriggerEvent → Bool
  | .normalRecv | .paddingRecv | .tunnelRecv | .tunnelSent | .timerEnd _ => true
  | _ => false

/-- An event that is not counted and that no machine listens to. -/
def TriggerEvent.unheard (machines : List Machine) (e : TriggerEvent) : Bool :=
  e.uncounted && machines.all (·.deaf e.event)

namespace Framework

variable {R T D : Type} [RngCore R] [Time.Duration D] [Time.Instant T D]

/-- A transition that the machine does not listen to is noted, and nothing else. -/
theorem transition_deaf {f : Framework R T D} (hf : WellFormed f) {mi : Nat} {m : Machine}
    (hm : f.machines[mi]? = some m) {event : Event} (hdeaf : m.deaf event = true) :
    f.transition mi event = .ok (.unchanged, f.note (.performed mi event)) := by
  obtain ⟨rt, hrt⟩ := exists_getElem? (show mi < f.runtime.length by
    rw [hf.runtime]
    exact (List.getElem?_eq_some_iff.mp hm).1)
  have hrt' : at? (f.note (.performed mi event)).runtime mi = .ok rt := at?_ok.mpr hrt
  rw [transition, bind_eq hrt']
  split
  · rfl
  rename_i hend
  obtain ⟨st, hst⟩ := exists_getElem? ((hf.states mi m rt hm hrt).resolve_left hend)
  have hnone : st.transitions[event.toUsize] = none := by
    have hall := List.all_eq_true.mp hdeaf st (List.mem_of_getElem? hst)
    exact Option.isNone_iff_eq_none.mp hall
  have hm' : at? (f.note (.performed mi event)).machines mi = .ok m := at?_ok.mpr hm
  have hst' : m.stateAt rt.currentState = .ok st := at?_ok.mpr hst
  rw [bind_eq hm', bind_eq hst']
  unfold State.sampleState
  rw [hnone]
  rfl

omit [RngCore R] [Time.Duration D] [Time.Instant T D] in
theorem WellFormed.relog {f : Framework R T D} (hf : WellFormed f) (l : List Step) :
    WellFormed (f.relog l) :=
  ⟨hf.runtime, hf.actions, hf.closed, hf.states⟩

/-- An unheard event is noted, and nothing else. -/
theorem processEvent_unheard {f : Framework R T D} (hf : WellFormed f) {e : TriggerEvent}
    (he : e.unheard f.machines = true) : ∃ l, f.processEvent e = .ok (f.relog l) := by
  obtain ⟨hcount, hdeaf⟩ := Bool.and_eq_true_iff.mp he
  have hrecorded : f.recorded e = f := by cases e <;> first | rfl | cases hcount
  have hown (rt : MachineRuntime T D) (blocked : D) : rt.recorded e blocked = rt := by
    cases e <;> first | rfl | cases hcount
  have hlimits (mi : Nat) : e.limits mi = false := by cases e <;> first | rfl | cases hcount
  have hturns : ∃ g, f.eachMachine (turn e f.blockedFor) = .ok g ∧ ∃ l, g = f.relog l := by
    refine foldlM_total ?_ ⟨f.log, rfl⟩
    rintro _ mi hmi ⟨l, rfl⟩
    cases hc : e.concerns mi with
    | false =>
      refine ⟨_, ?_, l, rfl⟩
      unfold turn
      rw [hc]
      rfl
    | true =>
      obtain ⟨m, hm⟩ := exists_getElem? (hf.runtime ▸ List.mem_range.mp hmi)
      have hquiet := transition_deaf (hf.relog l) hm
        (List.all_eq_true.mp hdeaf m (List.mem_of_getElem? hm))
      refine ⟨_, ?_, l ++ [.performed mi e.event], rfl⟩
      rw [turn_plain hc (fun rt => hown rt _), hlimits]
      exact bind_eq hquiet
  obtain ⟨g, hg, l, rfl⟩ := hturns
  refine ⟨l, ?_⟩
  rw [processEvent_eq, hrecorded]
  exact hg

section Dropped

variable {p : TriggerEvent → Bool} {ms : List Machine}
  (hp : ∀ e, p e = false → e.unheard ms = true)
include hp

/-- A batch without some events that nobody hears comes to the same, but for the log. -/
theorem processEvents_dropped {f g : Framework R T D} (hf : WellFormed f) (hms : f.machines = ms)
    {events : List TriggerEvent} (h : f.processEvents events = .ok g) :
    ∃ l, f.processEvents (events.filter p) = .ok (g.relog l) := by
  induction events generalizing f with
  | nil => exact ⟨g.log, h⟩
  | cons e es ih =>
    obtain ⟨f1, hf1, hwf1⟩ := processEvent_total hf e
    have hcons : f.processEvents (e :: es) = f1.processEvents es := bind_eq hf1
    have hrest : f1.processEvents es = .ok g := hcons.symm.trans h
    have hms1 : f1.machines = ms := (shape_eq (processEvent_shape hf1)).1.trans hms
    obtain ⟨l, hl⟩ := ih hwf1 hms1 hrest
    cases he : p e with
    | true =>
      rw [List.filter_cons_of_pos he]
      exact ⟨l, (bind_eq hf1).trans hl⟩
    | false =>
      rw [List.filter_cons_of_neg (by simp [he])]
      obtain ⟨k, hk⟩ := processEvent_unheard hf (hms.symm ▸ hp e he)
      obtain rfl : f1 = f.relog k := Except.ok.inj (hf1.symm.trans hk)
      -- the rest runs from the log of before as it does from the longer one
      exact relog_processEvents hl f.log

theorem triggerEvents_dropped {f g : Framework R T D} (hf : Reachable f) (hms : f.machines = ms)
    {events : List TriggerEvent} {now : T} {actions : List (TriggerAction D)}
    (h : f.triggerEvents events now = .ok (actions, g)) :
    ∃ l, f.triggerEvents (events.filter p) now = .ok (actions, g.relog l) := by
  obtain ⟨f1, hf1, h⟩ := bind_ok.mp h
  obtain ⟨f2, hf2, h⟩ := bind_ok.mp h
  obtain ⟨rfl, rfl⟩ := Prod.mk.inj (pure_ok.mp h)
  have hstart : WellFormed (f.startCall now) :=
    hf.during (rfl : (f.startCall now).processEvents [] = .ok _)
  obtain ⟨l1, hl1⟩ := processEvents_dropped hp hstart hms hf1
  obtain ⟨l2, hl2⟩ := relog_deliverSignal hf2 l1
  exact ⟨l2, (bind_eq hl1).trans (bind_eq hl2)⟩

omit hp in
/-- A session forgets the log of before at its first call. -/
theorem relog_run {f g : Framework R T D} {calls : List (List TriggerEvent × T)}
    {actions : List (List (TriggerAction D))} (h : f.run calls = .ok (actions, g))
    (l : List Step) : ∃ l', (f.relog l).run calls = .ok (actions, g.relog l') := by
  cases calls with
  | nil =>
    obtain ⟨rfl, rfl⟩ := Prod.mk.inj (pure_ok.mp h)
    exact ⟨l, rfl⟩
  | cons c cs => exact ⟨g.log, h⟩

theorem run_dropped {f : Framework R T D} (hf : Reachable f) (hms : f.machines = ms)
    (calls : List (List TriggerEvent × T)) :
    ∃ actions g l, f.run calls = .ok (actions, g) ∧
      f.run (calls.map fun c => (c.1.filter p, c.2)) = .ok (actions, { g with log := l }) := by
  induction calls generalizing f with
  | nil => exact ⟨[], f, f.log, rfl, rfl⟩
  | cons c cs ih =>
    obtain ⟨hwf, hsent⟩ := hf.wellFormed
    obtain ⟨actions, f1, hcall, _, _⟩ := triggerEvents_total hwf hsent c.1 c.2
    have hms1 : f1.machines = ms := (shape_eq (triggerEvents_shape hcall)).1.trans hms
    obtain ⟨rest, g, l, hrun, hdropped⟩ := ih (.next hf ⟨c.1, c.2, actions, trivial, hcall⟩) hms1
    obtain ⟨k, hk⟩ := triggerEvents_dropped hp hf hms hcall
    obtain ⟨l', hl'⟩ := relog_run hdropped k
    exact ⟨actions :: rest, g, l', (bind_eq hcall).trans (bind_eq hrun),
      (bind_eq hk).trans (bind_eq hl')⟩

end Dropped

/-- The events of a batch that are counted or that some machine listens to. -/
def heardOnly (ms : List Machine) (events : List TriggerEvent) : List TriggerEvent :=
  events.filter fun e => !e.unheard ms

/-- What no machine listens to need not be reported: without these events every call of every
session returns the same, and the framework comes to the same but for its log. -/
theorem unheard_dropped {f : Framework R T D} (hf : Reachable f)
    (calls : List (List TriggerEvent × T)) :
    ∃ actions g l, f.run calls = .ok (actions, g) ∧
      f.run (calls.map fun c => (heardOnly f.machines c.1, c.2)) =
        .ok (actions, { g with log := l }) :=
  run_dropped (fun e he => by simpa using he) hf rfl calls

/-- Machines that signal on normal packets need not hear of the tunnel. -/
theorem caller_unheard : ∃ f : Framework Unit Instant Duration, play [caller, echo] [] = some f ∧
    ∃ actions g l,
      f.run [([.tunnelSent, .normalSent, .tunnelRecv], 0), ([.timerEnd 1], 5)] =
        .ok (actions, g) ∧
      f.run [([.normalSent], 0), ([], 5)] = .ok (actions, { g with log := l }) := by
  have hplay : (play [caller, echo] []).map (fun f =>
      [[.tunnelSent, .normalSent, .tunnelRecv], [.timerEnd 1]].map (heardOnly f.machines)) =
        some [[.normalSent], []] := by decide +kernel
  obtain ⟨f, hf, hheard⟩ := Option.map_eq_some_iff.mp hplay
  obtain ⟨hfirst, hsecond⟩ := List.cons.inj hheard
  have hdropped := unheard_dropped (play_reachable hf)
    [([.tunnelSent, .normalSent, .tunnelRecv], 0), ([.timerEnd 1], 5)]
  simp only [List.map_cons, List.map_nil, hfirst, (List.cons.inj hsecond).1] at hdropped
  exact ⟨f, hf, hdropped⟩

end Framework

end Maybenot

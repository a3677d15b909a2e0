import Maybenot.Proofs.Blocking
import Maybenot.Proofs.Conserved
import Maybenot.Proofs.Overshoot

namespace Maybenot
open Lib

/-- Padding was sent, whichever machine asked for it. -/
def TriggerEvent.isPaddingSent : TriggerEvent → Bool
  | .paddingSent _ => true
  | _ => false

namespace Framework

variable {R T D : Type}

/-- The packets that a framework and its machines have counted are those of some events. -/
structure Counts (f : Framework R T D) (events : List TriggerEvent) : Prop where
  normal : f.normalSentPackets = events.count .normalSent
  padding : f.paddingSentPackets = events.countP (·.isPaddingSent)
  machines : ∀ (mi : Nat) rt, f.runtime[mi]? = some rt →
    rt.normalSent = events.count .normalSent ∧ rt.paddingSent = events.count (.paddingSent mi)

theorem Counts.of_fixed {f f' : Framework R T D} {events : List TriggerEvent} (h : Counts f events)
    (hfixed : f'.fixed = f.fixed)
    (hacc : ∀ mi : Nat, f'.runtime[mi]?.map accounting = f.runtime[mi]?.map accounting) :
    Counts f' events := by
  simp only [Framework.fixed, Prod.mk.injEq] at hfixed
  refine ⟨hfixed.2.2.2.1.trans h.normal, hfixed.2.2.2.2.1.trans h.padding, ?_⟩
  intro mi rt' hrt'
  have hmi := hacc mi
  rw [hrt'] at hmi
  obtain ⟨rt, hrt, hsame⟩ := Option.map_eq_some_iff.mp hmi.symm
  simp only [accounting, Prod.mk.injEq] at hsame
  rw [← hsame.1, ← hsame.2.1]
  exact h.machines mi rt hrt

variable [RngCore R] [Time.Duration D] [Time.Instant T D]

/-- An event is counted once. -/
theorem Counts.event {f f' : Framework R T D} {events : List TriggerEvent} {e : TriggerEvent}
    (h : Counts f events) (he : f.processEvent e = .ok f') : Counts f' (events ++ [e]) := by
  have hfixed := processEvent_fixed he
  simp only [Framework.fixed, Prod.mk.injEq] at hfixed
  obtain ⟨_, _, _, hnormal, hpadding, _⟩ := hfixed
  constructor
  · rw [hnormal, List.count_append, ← h.normal]
    cases e <;> simp only [recorded] <;> (try split) <;> rfl
  · rw [hpadding, List.countP_append, ← h.padding]
    cases e <;> simp only [recorded] <;> (try split) <;> rfl
  · intro mi rt' hrt'
    have hlen := (shape_eq (processEvent_shape he)).2.1
    have hmi := (List.getElem?_eq_some_iff.mp hrt').1
    obtain ⟨rt, hrt⟩ := exists_getElem? (hlen ▸ hmi)
    have hacc := processEvent_account hrt he
    rw [hrt'] at hacc
    simp only [Option.map_some, Option.some.injEq, accounting, Prod.mk.injEq] at hacc
    obtain ⟨hn, hp⟩ := h.machines mi rt hrt
    rw [hacc.1, hacc.2.1, List.count_append, List.count_append, ← hn, ← hp]
    cases e with
    | paddingSent machine =>
      by_cases hm : machine = mi <;>
        simp [TriggerEvent.concerns, MachineRuntime.recorded, hm]
    | timerBegin machine | timerEnd machine =>
      simp only [MachineRuntime.recorded]
      split <;> simp
    | blockingEnd =>
      simp only [TriggerEvent.concerns, if_true, MachineRuntime.recorded]
      split <;> simp
    | _ => simp [TriggerEvent.concerns, MachineRuntime.recorded]

theorem Counts.events {f f' : Framework R T D} {events more : List TriggerEvent}
    (h : Counts f events) (hrun : f.processEvents more = .ok f') : Counts f' (events ++ more) := by
  induction more generalizing f events with
  | nil =>
    obtain rfl := pure_ok.mp hrun
    rw [List.append_nil]
    exact h
  | cons e more ih =>
    obtain ⟨f1, hf1, hrest⟩ := bind_ok.mp (List.foldlM_cons.symm.trans hrun)
    have hmore := ih (h.event hf1) hrest
    rwa [List.append_assoc] at hmore

/-- The events of a call are counted, once each. -/
theorem Counts.call {f f' : Framework R T D} {events more : List TriggerEvent} {now : T}
    {actions : List (TriggerAction D)} (h : Counts f events)
    (hcall : f.triggerEvents more now = .ok (actions, f')) : Counts f' (events ++ more) := by
  obtain ⟨f1, hevents, hsignal, _⟩ := triggerEvents_ok hcall
  have hstart : Counts (f.startCall now) events := ⟨h.normal, h.padding, h.machines⟩
  refine deliverSignal_keeps (P := fun g => Counts g (events ++ more)) ?_ ?_
    (hstart.events hevents) hsignal
  · intro g hg
    exact ⟨hg.normal, hg.padding, hg.machines⟩
  · intro g j c g' hg hmove
    exact hg.of_fixed hmove.frame.fixed hmove.accounts

/-- The events of several calls are counted, once each. -/
theorem Counts.run {f f' : Framework R T D} {events : List TriggerEvent}
    {calls : List (List TriggerEvent × T)} {actions : List (List (TriggerAction D))}
    (h : Counts f events) (hrun : f.run calls = .ok (actions, f')) :
    Counts f' (events ++ calls.flatMap (·.1)) := by
  induction calls generalizing f events actions with
  | nil =>
    obtain ⟨_, rfl⟩ := Prod.mk.inj (pure_ok.mp hrun)
    rw [List.flatMap_nil, List.append_nil]
    exact h
  | cons call calls ih =>
    simp only [Framework.run, bind_ok] at hrun
    obtain ⟨⟨first, f1⟩, hcall, ⟨rest, f2⟩, hrest, hrun⟩ := hrun
    obtain ⟨_, rfl⟩ := Prod.mk.inj (pure_ok.mp hrun)
    have hmore := ih (h.call hcall) hrest
    rwa [List.append_assoc, ← List.flatMap_cons] at hmore

omit [Time.Instant T D] in
theorem Initial.counts {f : Framework R T D} (h : Initial f) : Counts f [] := by
  obtain ⟨machines, padding, blocking, now, rng, hnew⟩ := h
  have hacc := new_accounting hnew
  obtain ⟨_, _, _, started, _, rfl⟩ := new_ok.mp hnew
  refine ⟨rfl, rfl, ?_⟩
  intro mi rt hrt
  have hmi := congrArg (·[mi]?) hacc
  simp only [List.getElem?_map, hrt, Option.map_some] at hmi
  obtain ⟨m, _, hm⟩ := Option.map_eq_some_iff.mp hmi.symm
  simp only [accounting, Prod.mk.injEq] at hm
  exact ⟨hm.2.1.symm, hm.1.symm⟩

/-- One more call after several. -/
theorem run_concat {f f1 f2 : Framework R T D} {calls : List (List TriggerEvent × T)}
    {call : List TriggerEvent × T} {actions : List (List (TriggerAction D))}
    {last : List (TriggerAction D)} (hrun : f.run calls = .ok (actions, f1))
    (hcall : f1.triggerEvents call.1 call.2 = .ok (last, f2)) :
    f.run (calls ++ [call]) = .ok (actions ++ [last], f2) := by
  induction calls generalizing f actions with
  | nil =>
    obtain ⟨rfl, rfl⟩ := Prod.mk.inj (pure_ok.mp hrun)
    exact (bind_eq hcall).trans rfl
  | cons first calls ih =>
    simp only [Framework.run, bind_ok] at hrun
    obtain ⟨⟨a, g⟩, hfirst, ⟨rest, g'⟩, hrest, hrun⟩ := hrun
    obtain ⟨rfl, rfl⟩ := Prod.mk.inj (pure_ok.mp hrun)
    exact (bind_eq hfirst).trans (bind_eq (ih hrest))

end Framework

namespace Sim

variable {R G : Type}

/-- No round of picking changes the integration or the framework of a side. -/
theorem picks_fixed {w w' : Sim R G} {p : Pick} (h : Picks w p w') (c : Bool) :
    (w'.side c).integration = (w.side c).integration ∧
      (w'.side c).framework = (w.side c).framework := by
  have hset {v : Sim R G} {c1 : Bool} {s : SimState R G}
      (hside : ∀ c, v.side c = if c = c1 then s else w.side c)
      (hs : s.integration = (w.side c1).integration ∧ s.framework = (w.side c1).framework) :
      (v.side c).integration = (w.side c).integration ∧
        (v.side c).framework = (w.side c).framework := by
    rw [hside]
    split
    · rename_i hc
      rw [hc]
      exact hs
    · exact ⟨rfl, rfl⟩
  cases h with
  | nothing => exact ⟨rfl, rfl⟩
  | delayed => cases c <;> exact ⟨rfl, rfl⟩
  | @expiredLater _ _ _ c1 g b delay =>
    rw [pushSim_side]
    exact hset (fun c => unblocked_side w b c1 c g) ⟨rfl, rfl⟩
  | @expiredNow _ _ _ c1 g next b => exact hset (fun c => unblocked_side w b c1 c g) ⟨rfl, rfl⟩
  | queued => cases c <;> exact ⟨rfl, rfl⟩
  | @timer _ _ _ c1 m u timers i hq hi hle hlt hdue =>
    rw [pushSim_side]
    exact hset (fun c => side_of_setSide w c1 c _) ⟨rfl, rfl⟩
  | @padding _ _ _ c1 mi a actions timeout bypass replace m delay g s hq hs hlt hdue ha hd =>
    rw [pushSim_side]
    exact hset (fun c => side_of_setSide w c1 c _) ⟨rfl, rfl⟩
  | @block _ _ _ c1 mi a actions timeout duration bypass replace m delay g delay' g' x s hq hs hlt
      hdue ha hd hd' hx =>
    rw [pushSim_side]
    refine hset (fun c => blockFired_side w c1 c x g' _) ?_
    subst hx
    unfold SimState.block
    split <;> exact ⟨rfl, rfl⟩

end Sim

namespace Config
open Sim

variable {R G : Type}

/-- The events that were processed at a side, in order. -/
def heard (w : Sim R G) (c : Bool) : List SimEvent :=
  (processedEvents w.log).filter (·.client = c)

/-- The calls of the framework of a side: one for each event that was processed there, at its
time. -/
def calls (w : Sim R G) (c : Bool) : List (List TriggerEvent × Instant) :=
  (heard w c).map fun e => ([e.event], e.time)

theorem calls_events (w : Sim R G) (c : Bool) :
    (calls w c).flatMap (·.1) = (heard w c).map (·.event) := by
  unfold calls
  induction heard w c with
  | nil => rfl
  | cons e es ih =>
    rw [List.map_cons, List.flatMap_cons, ih]
    rfl

theorem picks_heard {w w' : Sim R G} {p : Pick} (h : Picks w p w') (c : Bool) :
    heard w' c = heard w c := by
  unfold heard
  rw [picks_processedEvents h]

variable [RngCore R]

/-- The framework of a side is new when the side is. -/
theorem new_framework {machines : List Machine} {now : Instant} {padding blocking : F64}
    {integration : Option (Integration G)} {rng : R} {s : SimState R G}
    (h : SimState.new machines now padding blocking integration rng = .ok s) :
    Framework.new machines padding blocking now rng = .ok (.ok s.framework) := by
  simp only [SimState.new, bind_ok] at h
  obtain ⟨r, hr, h⟩ := h
  cases r with
  | error e => exact absurd h (by simp)
  | ok f =>
    obtain rfl := pure_ok.mp h
    exact hr

theorem iterates_heard {args : SimulatorArgs G} {w w' : Sim R G} {e : SimEvent}
    (h : Iterates args w e w') (c : Bool) :
    heard w' c = if e.client = c then heard w c ++ [e] else heard w c := by
  unfold heard
  rw [iterates_processedEvents h, List.filter_append, List.filter_singleton]
  by_cases hc : e.client = c
  · rw [if_pos hc, decide_eq_true hc, cond_true]
  · rw [if_neg hc, decide_eq_false hc, cond_false, List.append_nil]

/-- The framework of the side hears of an event, the other one does not. -/
theorem iterates_framework {args : SimulatorArgs G} {w w' : Sim R G} {e : SimEvent}
    (h : Iterates args w e w') (c : Bool) :
    if e.client = c then ∃ actions, (w.side c).framework.triggerEvents [e.event] e.time =
      .ok (actions, (w'.side c).framework)
    else (w'.side c).framework = (w.side c).framework := by
  obtain ⟨_, a, w1, w2, hs, ht, n, rfl⟩ := h
  obtain ⟨actions, framework, w3, hcall, hown, hother, _, _, hacted⟩ := triggerUpdate_ok ht
  have hside (c : Bool) : w1.side c = w.side c := by
    rw [sends_side hs c]
    cases c <;> rfl
  have hnow : w1.currentTime = e.time := by cases hs <;> rfl
  have hrecord (c : Bool) : (Sim.side { (w2.record args e a).note (.processed e) with
      simIterations := n } c) = w2.side c := (w2.record_side args e a c).1
  rw [hrecord]
  split
  · rename_i hc
    subst hc
    rw [hside, hnow] at hcall
    refine ⟨actions, ?_⟩
    rw [hacted.framework, hown]
    exact hcall
  · rename_i hc
    have hc' : c = !e.client := Bool.eq_not_of_ne fun h => hc h.symm
    rw [hc', hacted.other, hother, hside]

/-- The framework of each side is what its framework at the start becomes in the calls for the
events that were processed at its side. -/
theorem session_run {args : SimulatorArgs G} {sq : SimQueue} {w0 : Sim R G}
    (hbegins : Begins args sq (.picking w0)) {cfg : Config R G} (h : ReachableFrom args w0 cfg)
    (c : Bool) : ∃ actions, (w0.side c).framework.run (calls cfg.sim c) =
      .ok (actions, (cfg.sim.side c).framework) := by
  refine h.invariant (P := fun cfg => ∃ actions, (w0.side c).framework.run (calls cfg.sim c) =
    .ok (actions, (cfg.sim.side c).framework)) ?_ ?_
  · rintro _ rfl
    obtain ⟨_, _, _, _, _, w, hstart, hw⟩ := hbegins
    obtain rfl : w0 = w := by simpa using hw
    have hlog : w0.log = [] := (start_ok hstart).2.2.2.2.2.2.2.2
    refine ⟨[], ?_⟩
    change (w0.side c).framework.run (calls w0 c) = _
    unfold calls heard
    rw [hlog]
    rfl
  · rintro cfg cfg' ⟨actions, hrun⟩ hnext
    have hpicks {w w' : Sim R G} {p : Pick} (hp : Picks w p w')
        (hw : (w0.side c).framework.run (calls w c) = .ok (actions, (w.side c).framework)) :
        ∃ actions, (w0.side c).framework.run (calls w' c) =
          .ok (actions, (w'.side c).framework) := by
      refine ⟨actions, ?_⟩
      unfold calls
      rw [picks_heard hp, (picks_fixed hp c).2]
      exact hw
    have hiterates {w w' : Sim R G} {e : SimEvent} (hit : Iterates args w e w')
        (hw : (w0.side c).framework.run (calls w c) = .ok (actions, (w.side c).framework)) :
        ∃ actions, (w0.side c).framework.run (calls w' c) =
          .ok (actions, (w'.side c).framework) := by
      have hframework := iterates_framework hit c
      unfold calls
      rw [iterates_heard hit]
      split
      · rename_i hc
        rw [if_pos hc] at hframework
        obtain ⟨last, hcall⟩ := hframework
        rw [List.map_append]
        exact ⟨_, Framework.run_concat hw hcall⟩
      · rename_i hc
        rw [if_neg hc] at hframework
        exact ⟨actions, hframework ▸ hw⟩
    cases next_ok hnext with
    | again hp => exact hpicks hp hrun
    | finished hp => exact hpicks hp hrun
    | found hp => exact hpicks hp hrun
    | stay hit => exact hiterates hit hrun
    | leave hit => exact hiterates hit hrun
    | stopped => exact ⟨actions, hrun⟩

/-- The frameworks of both sides are new at the start. -/
theorem Begins.initial {args : SimulatorArgs G} {sq : SimQueue} {w : Sim R G}
    (h : Begins args sq (.picking w)) (c : Bool) : Framework.Initial (w.side c).framework := by
  obtain ⟨_, _, _, _, _, w', hstart, hw⟩ := h
  obtain rfl : w = w' := by simpa using hw
  obtain ⟨_, hclient, hserver, _⟩ := start_ok hstart
  cases c with
  | false => exact ⟨_, _, _, _, _, new_framework hserver⟩
  | true => exact ⟨_, _, _, _, _, new_framework hclient⟩

theorem session_counts {args : SimulatorArgs G} {sq : SimQueue} {w0 : Sim R G}
    (hbegins : Begins args sq (.picking w0)) {cfg : Config R G} (h : ReachableFrom args w0 cfg)
    (c : Bool) : (cfg.sim.side c).framework.Counts ((heard cfg.sim c).map (·.event)) := by
  obtain ⟨actions, hrun⟩ := session_run hbegins h c
  have hcounts := (hbegins.initial c).counts.run hrun
  rwa [List.nil_append, calls_events] at hcounts

/-- Every place that is reached is reached from some start. -/
theorem reachable_from {args : SimulatorArgs G} {sq : SimQueue} {cfg : Config R G}
    (h : Reachable args sq cfg) :
    ∃ w0, Begins args sq (.picking w0) ∧ ReachableFrom args w0 cfg := by
  refine h.invariant (P := fun cfg => ∃ w0, Begins args sq (.picking w0) ∧
    ReachableFrom args w0 cfg) ?_ ?_
  · rintro cfg ⟨m, m', r, r', g, w, hstart, rfl⟩
    exact ⟨w, ⟨m, m', r, r', g, w, hstart, rfl⟩, .start rfl⟩
  · rintro cfg cfg' ⟨w0, hbegins, hfrom⟩ ⟨-, hnext⟩
    exact ⟨w0, hbegins, .next hfrom hnext⟩

/-- Each side's framework lives through a session of its own: it is what its framework at the
start of the run becomes in the calls for the events processed at its side, and it has counted
their packets. -/
theorem framework_session {args : SimulatorArgs G} {sq : SimQueue} {w0 : Sim R G}
    (hbegins : Begins args sq (.picking w0)) {cfg : Config R G} (h : ReachableFrom args w0 cfg)
    (c : Bool) :
    (∃ actions, (w0.side c).framework.run (calls cfg.sim c) =
      .ok (actions, (cfg.sim.side c).framework)) ∧
    (cfg.sim.side c).framework.Counts ((heard cfg.sim c).map (·.event)) :=
  ⟨session_run hbegins h c, session_counts hbegins h c⟩

/-- The session of a server that pads once when a packet comes. -/
theorem padded_session : ∃ w0 : Sim Unit Unit, ∃ cfg,
    Begins continuing oneSent (.picking w0) ∧ ReachableFrom continuing w0 cfg ∧
    (heard cfg.sim false).map (·.event) =
      [.tunnelRecv, .normalRecv, .paddingSent 0, .tunnelSent] ∧
    (w0.side false).framework.run (calls cfg.sim false) =
      .ok ([[.sendPadding 0 false false 0], [], [], []], (cfg.sim.side false).framework) ∧
    (cfg.sim.side false).framework.paddingSentPackets = 1 := by
  have hrun : (ranFor [] [Framework.padder 1 (Flt.ofRat (1 / 2)) none] oneSent continuing 13).map
      (fun r => ((heard r.2.sim false).map (·.event),
        ((r.1.side false).framework.run (calls r.2.sim false)).toOption.map (·.1))) =
      some ([.tunnelRecv, .normalRecv, .paddingSent 0, .tunnelSent],
        some [[.sendPadding 0 false false 0], [], [], []]) := by
    decide +kernel
  simp only [Option.map_eq_some_iff, toOption_eq_some, Prod.mk.injEq] at hrun
  obtain ⟨⟨w, cfg⟩, hran, hheard, ⟨_, f⟩, hsession, rfl⟩ := hrun
  obtain ⟨hbegins, hfrom, _⟩ := ranFor_some hran
  obtain ⟨⟨actions, hcalls⟩, hcounts⟩ := framework_session hbegins hfrom false
  obtain ⟨rfl, rfl⟩ := Prod.mk.inj (Except.ok.inj (hsession.symm.trans hcalls))
  refine ⟨w, cfg, hbegins, hfrom, hheard, hcalls, ?_⟩
  rw [hcounts.padding, hheard]
  rfl

end Config

end Maybenot

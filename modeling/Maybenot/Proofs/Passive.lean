import Maybenot.Proofs.Requests
import Maybenot.Proofs.Settings
import Maybenot.Proofs.Sessions
import Maybenot.Proofs.Chain
import Maybenot.Proofs.Signals

namespace Maybenot
open Lib

/-- A machine that never acts. It may count, signal and move between its states. -/
def Machine.Passive (m : Machine) : Prop := ∀ st ∈ m.states, st.action = none

namespace Framework

variable {R T D : Type} [RngCore R] [Time.Duration D] [Time.Instant T D]

/-- A framework in use whose machines never act. -/
def Silent (f : Framework R T D) : Prop := f.Reachable ∧ ∀ m ∈ f.machines, m.Passive

/-- It returns nothing at any event, and stays so. -/
theorem Silent.event {f : Framework R T D} (h : f.Silent) (e : TriggerEvent) (now : T) :
    ∃ f', f.triggerEvents [e] now = .ok ([], f') ∧ f'.Silent := by
  obtain ⟨hreach, hpassive⟩ := h
  obtain ⟨hwf, hsent⟩ := Reachable.wellFormed hreach
  obtain ⟨actions, f', hcall, _⟩ := triggerEvents_total hwf hsent [e] now
  obtain ⟨hmachines, hlen, hslots⟩ := shape_eq (triggerEvents_shape hcall)
  have hnone : actions = [] := by
    refine List.eq_nil_iff_forall_not_mem.mpr fun a ha => ?_
    have hslot := returned_slot hcall ha
    have hmi := (List.getElem?_eq_some_iff.mp hslot).1
    rw [hslots] at hmi
    obtain ⟨rt, hrt⟩ := exists_getElem? (show a.machine < f.runtime.length by
      rw [hwf.runtime, ← hwf.actions]
      exact hmi)
    obtain ⟨_, m, st, act, _, _, hm, hst, hact, _⟩ := (call_admits hrt hmi hcall).slot a hslot
    have hpass := hpassive m (hmachines ▸ List.mem_of_getElem? hm) st (List.mem_of_getElem? hst)
    exact absurd (hact.symm.trans hpass) (by simp)
  subst hnone
  exact ⟨f', hcall, .next hreach ⟨_, now, _, trivial, hcall⟩, hmachines ▸ hpassive⟩

end Framework

section Bare

variable {R G : Type} (f : Framework R Instant Duration)

/-- A side with another framework, and nothing scheduled. -/
def SimState.bare (s : SimState R G) : SimState R G :=
  { s with framework := f, scheduledAction := [], scheduledInternalTimer := [] }

/-- A simulation without its frameworks and what they scheduled. -/
def Sim.bare (w : Sim R G) : Sim R G :=
  { w with client := w.client.bare f, server := w.server.bare f }

namespace Sim

/-- Nothing is scheduled at either side. -/
def Idle (w : Sim R G) : Prop :=
  ∀ c, (w.side c).scheduledAction.reduceOption = [] ∧
    (w.side c).scheduledInternalTimer.reduceOption = []

theorem bare_side (w : Sim R G) (c : Bool) : (w.bare f).side c = (w.side c).bare f := by
  cases c <;> rfl

theorem bare_unblocked (w : Sim R G) (d : Duration) (c : Bool) (g : G) :
    (w.bare f).unblocked d c g = (w.unblocked d c g).bare f := by cases c <;> rfl

theorem bare_expire (w : Sim R G) (d : Duration) (c : Bool) :
    (w.bare f).expire d c = ((w.expire d c).1, (w.expire d c).2.bare f) := by
  obtain ⟨⟨x, g⟩, hx⟩ : ∃ r, (w.side c).reportingDelay w.rng = r := ⟨_, rfl⟩
  have hx' : ((w.bare f).side c).reportingDelay (w.bare f).rng = (x, g) := by
    rw [bare_side]
    exact hx
  rw [expire_eq hx, expire_eq hx', bare_unblocked]
  split <;> rfl

theorem takeFirst_idle {α : Type} {xs : List (Option α)} (h : xs.reduceOption = [])
    (p : α → Bool) : takeFirst p xs = none := by
  induction xs with
  | nil => rfl
  | cons x xs ih =>
    cases x with
    | none =>
      unfold takeFirst
      rw [ih h]
      rfl
    | some a => exact absurd h (by simp [List.reduceOption_cons_of_some])

theorem Idle.waits {w : Sim R G} (h : w.Idle) : w.actionWait = ⊤ ∧ w.timerWait = ⊤ := by
  have hclient := h true
  have hserver := h false
  simp only [side, if_true, Bool.false_eq_true, if_false] at hclient hserver
  constructor
  · unfold actionWait peekScheduledAction
    rw [hclient.1, hserver.1]
    rfl
  · unfold timerWait peekScheduledInternalTimer
    rw [hclient.2, hserver.2]
    rfl

theorem Idle.dues {w : Sim R G} (h : w.Idle) (target : Instant) :
    w.doInternalTimer target = .error .noInternalAction ∧
      w.doScheduledAction target = .error .noAction := by
  have hclient := h true
  have hserver := h false
  simp only [side, if_true, Bool.false_eq_true, if_false] at hclient hserver
  constructor
  · unfold doInternalTimer takeDue
    rw [takeFirst_idle hclient.2, takeFirst_idle hserver.2]
    rfl
  · unfold doScheduledAction takeDue
    rw [takeFirst_idle hclient.1, takeFirst_idle hserver.1]
    rfl

theorem bare_idle (w : Sim R G) : (w.bare f).Idle := by
  intro c
  rw [bare_side]
  exact ⟨rfl, rfl⟩

/-- A round of picking needs no frameworks where nothing is scheduled. -/
theorem bare_pickStep {w : Sim R G} (h : w.Idle) :
    (w.bare f).pickStep = w.pickStep.map fun r => (r.1, r.2.bare f) := by
  have hexpiry : (w.bare f).expiryWait = w.expiryWait := rfl
  have hdelay : (w.bare f).delayWait = w.delayWait := rfl
  have hother : (w.bare f).otherWait = w.otherWait := by
    unfold otherWait
    rw [h.waits.1, h.waits.2, (bare_idle f w).waits.1, (bare_idle f w).waits.2]
    rfl
  have hqueue : (w.bare f).queueWait = w.queueWait := by
    unfold queueWait
    rw [hother]
    rfl
  unfold pickStep
  simp only [h.waits.1, h.waits.2, (bare_idle f w).waits.1, (bare_idle f w).waits.2, hexpiry,
    hdelay, hqueue]
  refine bind_alike fun q => ?_
  split
  · rfl
  split
  · rfl
  split
  · exact congrArg (fun r => (pure r : Exec _)) (bare_expire f w _ _)
  split
  · exact bind_alike (x := w.sq.pop q.2.1 q.2.2 _) fun r => bind_alike fun e => rfl
  split
  · exact bind_carried (g := fun r => (r.1, r.2.bare f)) (by
      rw [(h.dues _).1, ((bare_idle f w).dues _).1]
      rfl) fun r => rfl
  · exact bind_carried (g := fun r => (r.1, r.2.bare f)) (by
      rw [(h.dues _).2, ((bare_idle f w).dues _).2]
      rfl) fun r => rfl

theorem bare_simNetworkStack (w : Sim R G) (e : SimEvent) :
    (w.bare f).simNetworkStack e = (w.simNetworkStack e).map fun r => (r.1, r.2.bare f) := by
  have hreplace : (w.bare f).replacePadding e =
      (w.replacePadding e).map (Option.map (bare f)) := by
    unfold replacePadding
    rw [show (w.bare f).sq = w.sq from rfl, show (w.bare f).network = w.network from rfl,
      bare_side]
    dsimp only
    rw [show ((w.side e.client).bare f).blockingBypassable =
      (w.side e.client).blockingBypassable from rfl]
    generalize peekBlocking (w.sq.side e.client) (w.side e.client).blockingBypassable = head
    obtain ⟨queued, k⟩ := head
    cases queued with
    | none => rfl
    | some queued =>
      dsimp only
      split
      · split
        · exact bind_alike fun r => bind_alike fun popped => rfl
        · rfl
      · rfl
  have hsend : (w.bare f).sendPacket e = (w.sendPacket e).bare f := by
    unfold sendPacket
    rw [bare_side]
    rfl
  unfold simNetworkStack
  cases e.event with
  | paddingSent machine =>
    change (if e.replace = true then _ else _) = Except.map _ (if e.replace = true then _ else _)
    split
    · refine bind_carried hreplace fun r => ?_
      cases r <;> rfl
    · rfl
  | tunnelSent => exact congrArg (fun w => (pure (true, w) : Exec _)) hsend
  | _ => rfl

variable [RngCore R]

/-- Nothing is scheduled, and the machines of neither side ever act. -/
structure Alone (w : Sim R G) : Prop where
  idle : w.Idle
  silent : ∀ c, (w.side c).framework.Silent

/-- Picking schedules nothing and calls no framework. -/
theorem Alone.picks {w w' : Sim R G} {p : Pick} (h : w.Alone) (hp : Picks w p w') : w'.Alone := by
  refine ⟨fun c => ?_, fun c => (picks_fixed hp c).2 ▸ h.silent c⟩
  have hset {v : Sim R G} {c1 : Bool} {s : SimState R G}
      (hside : ∀ c, v.side c = if c = c1 then s else w.side c)
      (hs : s.scheduledAction.reduceOption = [] ∧ s.scheduledInternalTimer.reduceOption = []) :
      (v.side c).scheduledAction.reduceOption = [] ∧
        (v.side c).scheduledInternalTimer.reduceOption = [] := by
    rw [hside]
    split
    · exact hs
    · exact h.idle c
  cases hp with
  | nothing => exact h.idle c
  | delayed | queued => cases c <;> exact h.idle _
  | @expiredLater _ _ _ c1 g b delay =>
    rw [pushSim_side]
    exact hset (fun c => unblocked_side w b c1 c g) (h.idle c1)
  | @expiredNow _ _ _ c1 g next b =>
    exact hset (fun c => unblocked_side w b c1 c g) (h.idle c1)
  | timer hq hi => exact absurd (h.idle.waits.2.symm.trans hi) WithTop.top_ne_coe
  | padding hq hs => exact absurd (h.idle.waits.1.symm.trans hs) WithTop.top_ne_coe
  | block hq hs => exact absurd (h.idle.waits.1.symm.trans hs) WithTop.top_ne_coe

/-- A side gets another silent framework. -/
theorem Alone.listen {w : Sim R G} (h : w.Alone) {g : Framework R Instant Duration}
    (hg : g.Silent) (c : Bool) (x : G) :
    Alone { w.setSide c { w.side c with framework := g } with rng := x } := by
  have hside (c' : Bool) : side { w.setSide c { w.side c with framework := g } with rng := x } c' =
      if c' = c then { w.side c with framework := g } else w.side c' := by
    cases c' <;> cases c <;> rfl
  constructor
  · intro c'
    rw [hside]
    split
    · exact h.idle c
    · exact h.idle c'
  · intro c'
    rw [hside]
    split
    · exact hg
    · exact h.silent c'

/-- A framework that is told of an event asks for nothing; only its integration draws. -/
theorem Alone.told {w : Sim R G} (h : w.Alone) (e : SimEvent) :
    ∃ w', w.triggerUpdate e = .ok w' ∧ w'.Alone ∧
      w'.bare f = { w.bare f with rng := (((w.bare f).side e.client).triggerDelay w.rng).2 } := by
  obtain ⟨g, hcall, hsilent⟩ := (h.silent e.client).event e.event w.currentTime
  obtain ⟨⟨delay, x⟩, hdelay⟩ : ∃ r, (w.side e.client).triggerDelay w.rng = r := ⟨_, rfl⟩
  have hbare : ((w.bare f).side e.client).triggerDelay w.rng = (delay, x) := by
    rw [bare_side]
    exact hdelay
  refine ⟨_, ?_, h.listen hsilent e.client x, ?_⟩
  · unfold triggerUpdate
    dsimp only
    rw [hdelay]
    dsimp only
    rw [hcall]
    rfl
  · rw [hbare]
    cases e.client <;> rfl

omit [RngCore R] in
theorem bare_conclude (args : SimulatorArgs G) (e : SimEvent) (activity : Bool) (w : Sim R G) :
    (w.bare f).conclude args e activity =
      ((w.conclude args e activity).1, (w.conclude args e activity).2.bare f) := by
  have hrecord : (w.bare f).record args e activity = (w.record args e activity).bare f := by
    unfold record
    split <;> rfl
  unfold conclude
  rw [hrecord]
  dsimp only [bare, note]
  split <;> rfl

omit [RngCore R] in
theorem conclude_side (args : SimulatorArgs G) (e : SimEvent) (activity : Bool) (w : Sim R G)
    (c : Bool) : (w.conclude args e activity).2.side c = w.side c := by
  have hrecord : (w.record args e activity).side c = w.side c := by
    unfold record
    split <;> cases c <;> rfl
  unfold conclude
  dsimp only
  split <;> exact hrecord

theorem Alone.of_sides {w w' : Sim R G} (h : w.Alone) (hside : ∀ c, w'.side c = w.side c) :
    w'.Alone :=
  ⟨fun c => hside c ▸ h.idle c, fun c => hside c ▸ h.silent c⟩

theorem Alone.sends {w v : Sim R G} {e : SimEvent} {activity : Bool} (h : w.Alone)
    (hnet : simNetworkStack { w with currentTime := e.time } e = .ok (activity, v)) : v.Alone := by
  refine h.of_sides fun c => (sends_side (simNetworkStack_ok hnet) c).trans ?_
  cases c <;> rfl

theorem Alone.process {w v : Sim R G} {e : SimEvent} {activity : Bool} (h : w.Alone)
    (hok : w.process e = .ok (activity, v)) : v.Alone := by
  obtain ⟨⟨a, u⟩, hnet, hok⟩ := bind_ok.mp hok
  obtain ⟨v', htold, hok⟩ := bind_ok.mp hok
  obtain ⟨u', htold', hu, _⟩ := (h.sends hnet).told u.client.framework e
  obtain rfl : v' = u' := Except.ok.inj (htold.symm.trans htold')
  obtain ⟨rfl, rfl⟩ := Prod.mk.inj (pure_ok.mp hok)
  exact hu

/-- What silent frameworks leave of an event, from what was there without them. -/
theorem Alone.bare_process {w : Sim R G} (h : w.Alone) (e : SimEvent) :
    (w.process e).map (fun r => (r.1, r.2.bare f)) =
      (simNetworkStack { w.bare f with currentTime := e.time } e).map fun r =>
        (r.1, { r.2 with rng := ((r.2.side e.client).triggerDelay r.2.rng).2 }) := by
  have hnet := bare_simNetworkStack f { w with currentTime := e.time } e
  have hw : bare f { w with currentTime := e.time } = { w.bare f with currentTime := e.time } := rfl
  unfold Sim.process
  rw [← hw, hnet]
  cases hrun : simNetworkStack { w with currentTime := e.time } e with
  | error fault => rfl
  | ok r =>
    obtain ⟨activity, v⟩ := r
    obtain ⟨u, htold, _, hbare⟩ := (h.sends hrun).told f e
    refine (congrArg (fun x : Exec (Sim R G) =>
      (x >>= fun u => .ok (activity, u)).map fun r => (r.1, r.2.bare f)) htold).trans ?_
    exact congrArg (fun u => Except.ok (activity, u)) hbare

/-- Two iterations look alike without their frameworks where they begin alike. -/
theorem Alone.iterate {w w' : Sim R G} (h : w.Alone) (h' : w'.Alone)
    (hsame : w.bare f = w'.bare f) (args : SimulatorArgs G) (e : SimEvent) :
    (w.iterate args e).map (fun r => (r.1, r.2.bare f)) =
      (w'.iterate args e).map fun r => (r.1, r.2.bare f) := by
  have htime : w.currentTime = w'.currentTime := congrArg (·.currentTime) hsame
  by_cases hback : e.time < w.currentTime
  · unfold Sim.iterate
    rw [if_pos hback, if_pos (htime ▸ hback)]
  have hle : w.currentTime ≤ e.time := not_lt.mp hback
  have hprocess : (w.process e).map (fun r => (r.1, r.2.bare f)) =
      (w'.process e).map fun r => (r.1, r.2.bare f) := by
    rw [Alone.bare_process f h, Alone.bare_process f h', hsame]
  rw [iterate_eq args hle, iterate_eq args (htime ▸ hle)]
  have hlike := bind_like (h := fun r => (r.1, r.2.bare f)) hprocess
    (f := fun r => .ok (r.2.conclude args e r.1)) (k := fun r => .ok (r.2.conclude args e r.1))
  refine hlike fun r r' _ _ hr => congrArg Except.ok ?_
  obtain ⟨hactivity, hv⟩ := Prod.mk.inj hr
  dsimp only
  rw [← bare_conclude, ← bare_conclude, hv, hactivity]

theorem Alone.iterate_ok {args : SimulatorArgs G} {w w' : Sim R G} {e : SimEvent} {stop : Bool}
    (h : w.Alone) (hok : w.iterate args e = .ok (stop, w')) : w'.Alone := by
  have hle := (Sim.iterate_ok hok).1.forward
  rw [iterate_eq args hle] at hok
  cases hw : w.process e with
  | error fault =>
    rw [hw] at hok
    cases hok
  | ok r =>
    rw [hw] at hok
    have hw' : w' = (r.2.conclude args e r.1).2 := (congrArg (·.2) (Except.ok.inj hok)).symm
    exact hw' ▸ (h.process hw).of_sides fun c => conclude_side args e r.1 r.2 c

end Sim

namespace Config
open Sim

variable [RngCore R]

/-- A place of a run without its frameworks and what they scheduled. -/
def bare : Config R G → Config R G
  | .picking w => .picking (w.bare f)
  | .returned e w => .returned e (w.bare f)
  | .done w => .done (w.bare f)

theorem next_alone {args : SimulatorArgs G} {c c' : Config R G} (h : c.sim.Alone)
    (hnext : c.next args = .ok c') : c'.sim.Alone := by
  cases c with
  | picking w =>
    obtain ⟨⟨p, w'⟩, hpick, hnext⟩ := bind_ok.mp hnext
    have hw := Alone.picks h (pickStep_ok hpick)
    rcases p with _ | _ | e <;> exact pure_ok.mp hnext ▸ hw
  | returned e w =>
    obtain ⟨⟨stop, w'⟩, hiter, hnext⟩ := bind_ok.mp hnext
    have hw := Alone.iterate_ok h hiter
    cases stop <;> exact pure_ok.mp hnext ▸ hw
  | done w => exact pure_ok.mp hnext ▸ h

/-- Two runs that differ in silent frameworks only go on alike. -/
theorem next_bare {args : SimulatorArgs G} {c c' : Config R G} (h : c.sim.Alone)
    (h' : c'.sim.Alone) (hsame : c.bare f = c'.bare f) :
    (c.next args).map (bare f) = (c'.next args).map (bare f) := by
  cases c with
  | picking w =>
    cases c' with
    | returned e w' | done w' => cases hsame
    | picking w' =>
      have hpick : w.pickStep.map (fun r => (r.1, r.2.bare f)) =
          w'.pickStep.map fun r => (r.1, r.2.bare f) := by
        rw [← bare_pickStep f (w := w) h.idle, ← bare_pickStep f (w := w') h'.idle,
          Config.picking.inj hsame]
      refine bind_like hpick fun r r' _ _ hr => ?_
      obtain ⟨p, v⟩ := r
      obtain ⟨p', v'⟩ := r'
      obtain ⟨hp, hv⟩ := Prod.mk.inj hr
      obtain rfl : p = p' := hp
      rcases p with _ | _ | e
      · exact congrArg (fun v => Except.ok (picking v)) hv
      · exact congrArg (fun v => Except.ok (done v)) hv
      · exact congrArg (fun v => Except.ok (returned e v)) hv
  | returned e w =>
    cases c' with
    | picking w' | done w' => cases hsame
    | returned e' w' =>
      obtain ⟨rfl, hw⟩ := Config.returned.inj hsame
      have hiter : (w.iterate args e).map (fun r => (r.1, r.2.bare f)) =
          (w'.iterate args e).map fun r => (r.1, r.2.bare f) :=
        Alone.iterate f h h' hw args e
      refine bind_like hiter fun r r' _ _ hr => ?_
      obtain ⟨stop, v⟩ := r
      obtain ⟨stop', v'⟩ := r'
      obtain ⟨hstop, hv⟩ := Prod.mk.inj hr
      obtain rfl : stop = stop' := hstop
      cases stop
      · exact congrArg (fun v => Except.ok (picking v)) hv
      · exact congrArg (fun v => Except.ok (done v)) hv
  | done w =>
    cases c' with
    | picking w' | returned e w' => cases hsame
    | done w' => exact congrArg Except.ok hsame

theorem run_bare {args : SimulatorArgs G} (fuel : Nat) {c c' : Config R G} (h : c.sim.Alone)
    (h' : c'.sim.Alone) (hsame : c.bare f = c'.bare f) :
    (c.run args fuel).map (·.trace) = (c'.run args fuel).map (·.trace) := by
  have hdone {w w' : Sim R G} (hw : (done w).bare f = (done w').bare f) : w.trace = w'.trace :=
    congrArg (·.sim.trace) hw
  have hgo {fuel : Nat} {c c' : Config R G} (hc : c.sim.Alone) (hc' : c'.sim.Alone)
      (hsame : c.bare f = c'.bare f)
      (ih : ∀ {k k' : Config R G}, k.sim.Alone → k'.sim.Alone → k.bare f = k'.bare f →
        (k.run args fuel).map (·.trace) = (k'.run args fuel).map (·.trace)) :
      (c.next args >>= run args fuel).map (·.trace) =
        (c'.next args >>= run args fuel).map (·.trace) :=
    bind_like (next_bare f hc hc' hsame) fun k k' hk hk' hkk =>
      ih (next_alone hc hk) (next_alone hc' hk') hkk
  induction fuel generalizing c c' with
  | zero =>
    cases c <;> cases c' <;> try cases hsame
    · rfl
    · rfl
    · exact congrArg Except.ok (hdone hsame)
  | succ fuel ih =>
    cases c <;> cases c' <;> try cases hsame
    · exact hgo h h' hsame ih
    · exact hgo h h' hsame ih
    · exact congrArg Except.ok (hdone hsame)

end Config

/-- Starting a side with machines that never act succeeds as it does without machines. -/
theorem SimState.new_bare [RngCore R] {ms : List Machine}
    (hms : ∀ m ∈ ms, m.validate R = .ok ()) (now : Instant) (padding blocking : F64)
    (i : Option (Integration G)) (rng : R) :
    (SimState.new ms now padding blocking i rng).map (·.bare f) =
      (SimState.new [] now padding blocking i rng).map (·.bare f) := by
  by_cases hfrac : Framework.isFraction padding = true ∧ Framework.isFraction blocking = true
  · obtain ⟨g, hg⟩ := Framework.new_total (T := Instant) (D := Duration) hfrac.1 hfrac.2 hms now rng
    obtain ⟨g', hg'⟩ := Framework.new_total (T := Instant) (D := Duration) hfrac.1 hfrac.2
      (fun m (hm : m ∈ []) => absurd hm List.not_mem_nil) now rng
    unfold SimState.new
    rw [hg, hg']
    rfl
  · obtain ⟨e, he⟩ := Framework.new_refused (D := Duration) hfrac ms now rng
    obtain ⟨e', he'⟩ := Framework.new_refused (D := Duration) hfrac [] now rng
    unfold SimState.new
    rw [he, he']
    rfl

theorem SimState.new_alone [RngCore R] {ms : List Machine} {now : Instant}
    {padding blocking : F64} {i : Option (Integration G)} {rng : R} {s : SimState R G}
    (hms : ∀ m ∈ ms, m.Passive) (h : SimState.new ms now padding blocking i rng = .ok s) :
    s.framework.Silent ∧ s.scheduledAction.reduceOption = [] ∧
      s.scheduledInternalTimer.reduceOption = [] := by
  obtain ⟨r, hnew, h⟩ := bind_ok.mp h
  cases r with
  | error e => exact absurd h (by simp)
  | ok g =>
    obtain rfl := pure_ok.mp h
    refine ⟨⟨.start ⟨ms, padding, blocking, now, rng, hnew⟩, ?_⟩, ?_, ?_⟩
    · rw [(Framework.new_wellFormed hnew).2.2]
      exact hms
    · exact List.reduceOption_replicate_none
    · exact List.reduceOption_replicate_none

theorem start_alone [RngCore R] {msClient msServer : List Machine} {sq : SimQueue}
    {args : SimulatorArgs G} {rngClient rngServer : R} {rng : G} {w : Sim R G}
    (hclient : ∀ m ∈ msClient, m.Passive) (hserver : ∀ m ∈ msServer, m.Passive)
    (h : Sim.start msClient msServer sq args rngClient rngServer rng = .ok w) : w.Alone := by
  obtain ⟨-, hc, hs, -⟩ := Config.start_ok h
  obtain ⟨hc, hcidle⟩ := SimState.new_alone hclient hc
  obtain ⟨hs, hsidle⟩ := SimState.new_alone hserver hs
  constructor
  · intro c
    cases c
    · exact hsidle
    · exact hcidle
  · intro c
    cases c
    · exact hs
    · exact hc

theorem start_bare [RngCore R] {msClient msServer : List Machine}
    (hclient : ∀ m ∈ msClient, m.validate R = .ok ())
    (hserver : ∀ m ∈ msServer, m.validate R = .ok ()) (sq : SimQueue) (args : SimulatorArgs G)
    (rngClient rngServer : R) (rng : G) :
    (Sim.start msClient msServer sq args rngClient rngServer rng).map (·.bare f) =
      (Sim.start [] [] sq args rngClient rngServer rng).map (·.bare f) := by
  refine bind_like (g := id) rfl fun now now' _ _ hnow => ?_
  obtain rfl : now = now' := hnow
  refine bind_like (SimState.new_bare f hclient _ _ _ _ _) fun c c' _ _ hc => ?_
  refine bind_like (SimState.new_bare f hserver _ _ _ _ _) fun s s' _ _ hs => ?_
  refine bind_like (g := id) rfl fun n n' _ _ hn => ?_
  obtain rfl : n = n' := hn
  refine congrArg Except.ok ?_
  unfold Sim.bare
  dsimp only
  rw [hc, hs]

end Bare

/-- Machines that never act leave no trace in a simulation: whatever they count, draw and signal,
the output is the one without machines. -/
theorem passive_invisible {R G : Type} [RngCore R] {msClient msServer : List Machine}
    (hclient : ∀ m ∈ msClient, m.validate R = .ok () ∧ m.Passive)
    (hserver : ∀ m ∈ msServer, m.validate R = .ok () ∧ m.Passive)
    (sq : SimQueue) (args : SimulatorArgs G) (rngClient rngServer : R) (rng : G) (fuel : Nat) :
    simAdvanced msClient msServer sq args rngClient rngServer rng fuel =
      simAdvanced [] [] sq args rngClient rngServer rng fuel := by
  have hzero : Framework.isFraction ⟨0⟩ = true := by decide +kernel
  have hnone : ∀ m ∈ ([] : List Machine), m.validate R = .ok () :=
    fun m hm => absurd hm List.not_mem_nil
  obtain ⟨f, -⟩ := Framework.new_total (T := Instant) (D := Duration) hzero hzero hnone 0 rngClient
  have hid (x : Exec (List SimEvent)) : x.map id = x := by cases x <;> rfl
  rw [← hid (simAdvanced msClient msServer sq args rngClient rngServer rng fuel),
    ← hid (simAdvanced [] [] sq args rngClient rngServer rng fuel)]
  refine bind_like (start_bare f (fun m hm => (hclient m hm).1) (fun m hm => (hserver m hm).1) sq
    args rngClient rngServer rng) fun w w' hw hw' hsame => ?_
  have halone := start_alone (fun m hm => (hclient m hm).2) (fun m hm => (hserver m hm).2) hw
  have halone' := start_alone (fun m hm => absurd hm List.not_mem_nil)
    (fun m hm => absurd hm List.not_mem_nil) hw'
  refine bind_like (Config.run_bare f fuel halone halone' (congrArg Config.picking hsame))
    fun v v' _ _ htrace => ?_
  exact congrArg (fun trace => Except.ok (trace.mergeSort fun a b => decide (a.time ≤ b.time)))
    htrace

/-- Machines that signal each other at both sides change nothing of a trace of one packet. -/
theorem callers_invisible : ∃ out,
    simAdvanced [Framework.echoingCaller, Framework.echo] [Framework.echo] Config.oneSent
      (.new ⟨10, none⟩ 0 false : SimulatorArgs Unit) () () () 20 = .ok out ∧
    out.map (fun e => (e.client, e.event, e.time)) =
      [(true, .normalSent, 0), (true, .tunnelSent, 0), (false, .tunnelRecv, 10)] := by
  have hclient : ∀ m ∈ [Framework.echoingCaller, Framework.echo],
      m.validate Unit = .ok () ∧ m.Passive := by
    unfold Machine.Passive
    decide +kernel
  have hserver : ∀ m ∈ [Framework.echo], m.validate Unit = .ok () ∧ m.Passive :=
    fun m hm => hclient m (List.mem_cons_of_mem _ hm)
  have hrun : ((Sim.start [] [] Config.oneSent (.new ⟨10, none⟩ 0 false : SimulatorArgs Unit)
      () () ()).toOption.bind fun w =>
        ((Config.picking w).run (.new ⟨10, none⟩ 0 false) 20).toOption.map fun w =>
          (w.trace.map fun e => (e.client, e.event, e.time),
            decide (w.trace.Pairwise fun a b => decide (a.time ≤ b.time) = true))) =
        some ([(true, .normalSent, 0), (true, .tunnelSent, 0), (false, .tunnelRecv, 10)],
          true) := by decide +kernel
  simp only [Option.bind_eq_some_iff, Option.map_eq_some_iff, toOption_eq_some, Prod.mk.injEq,
    decide_eq_true_eq] at hrun
  obtain ⟨w, hstart, w', hrun, hevents, hsorted⟩ := hrun
  refine ⟨w'.trace, (passive_invisible hclient hserver _ _ _ _ _ _).trans ?_, hevents⟩
  refine (bind_eq hstart).trans ((bind_eq hrun).trans (congrArg Except.ok ?_))
  exact List.mergeSort_of_pairwise (by simpa using hsorted)

end Maybenot

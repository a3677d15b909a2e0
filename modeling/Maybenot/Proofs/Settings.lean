import Maybenot.Proofs.Causal

namespace Maybenot
open Lib

section Retrace

variable {R G : Type} (f : List SimEvent → List SimEvent)

/-- A simulation with another trace behind it. -/
def Sim.retrace (w : Sim R G) : Sim R G := { w with trace := f w.trace }

namespace Sim

theorem retrace_setSide (w : Sim R G) (b : Bool) (s : SimState R G) :
    (w.retrace f).setSide b s = (w.setSide b s).retrace f := by cases b <;> rfl

theorem retrace_unblocked (w : Sim R G) (d : Duration) (b : Bool) (g : G) :
    (w.retrace f).unblocked d b g = (w.unblocked d b g).retrace f := by cases b <;> rfl

theorem retrace_expire (w : Sim R G) (d : Duration) (b : Bool) :
    (w.retrace f).expire d b = ((w.expire d b).1, (w.expire d b).2.retrace f) := by
  obtain ⟨⟨x, g⟩, hx⟩ : ∃ r, (w.side b).reportingDelay w.rng = r := ⟨_, rfl⟩
  have hx' : ((w.retrace f).side b).reportingDelay (w.retrace f).rng = (x, g) := hx
  rw [expire_eq hx, expire_eq hx', retrace_unblocked]
  split <;> rfl

theorem retrace_doInternalTimer (w : Sim R G) (target : Instant) :
    (w.retrace f).doInternalTimer target =
      (w.doInternalTimer target).map fun r => (r.1, r.2.retrace f) := by
  unfold doInternalTimer
  rw [show (w.retrace f).client = w.client from rfl, show (w.retrace f).server = w.server from rfl]
  cases takeDue id target w.client.scheduledInternalTimer w.server.scheduledInternalTimer with
  | none => rfl
  | some r => exact congrArg (fun w => (pure (_, w) : Exec _)) (retrace_setSide f w _ _)

theorem retrace_doScheduledAction (w : Sim R G) (target : Instant) :
    (w.retrace f).doScheduledAction target =
      (w.doScheduledAction target).map fun r => (r.1, r.2.retrace f) := by
  unfold doScheduledAction
  rw [show (w.retrace f).client = w.client from rfl, show (w.retrace f).server = w.server from rfl]
  cases takeDue (·.time) target w.client.scheduledAction w.server.scheduledAction with
  | none => rfl
  | some r =>
    obtain ⟨b, mi, ⟨action, time⟩, actions⟩ := r
    cases action with
    | cancel machine timer => rfl
    | updateTimer duration replace machine => rfl
    | sendPadding timeout bypass replace machine => cases b <;> rfl
    | blockOutgoing timeout duration bypass replace machine => cases b <;> rfl

theorem retrace_pickStep (w : Sim R G) :
    (w.retrace f).pickStep = w.pickStep.map fun r => (r.1, r.2.retrace f) := by
  have haction : (w.retrace f).actionWait = w.actionWait := rfl
  have htimer : (w.retrace f).timerWait = w.timerWait := rfl
  have hexpiry : (w.retrace f).expiryWait = w.expiryWait := rfl
  have hdelay : (w.retrace f).delayWait = w.delayWait := rfl
  have hqueue : (w.retrace f).queueWait = w.queueWait := rfl
  unfold pickStep
  simp only [haction, htimer, hexpiry, hdelay, hqueue]
  refine bind_alike fun q => ?_
  split
  · rfl
  split
  · rfl
  split
  · exact congrArg (fun r => (pure r : Exec _)) (retrace_expire f w _ _)
  split
  · refine bind_alike (x := w.sq.pop q.2.1 q.2.2 _) fun r => bind_alike fun e => rfl
  split
  · exact bind_carried (retrace_doInternalTimer f w _) fun r => rfl
  · exact bind_carried (retrace_doScheduledAction f w _) fun r => rfl

theorem retrace_simNetworkStack (w : Sim R G) (e : SimEvent) :
    (w.retrace f).simNetworkStack e = (w.simNetworkStack e).map fun r => (r.1, r.2.retrace f) := by
  have hreplace : (w.retrace f).replacePadding e =
      (w.replacePadding e).map (Option.map (retrace f)) := by
    unfold replacePadding
    rw [show (w.retrace f).sq = w.sq from rfl, show (w.retrace f).network = w.network from rfl,
      show (w.retrace f).side e.client = w.side e.client from rfl]
    dsimp only
    generalize peekBlocking (w.sq.side e.client) (w.side e.client).blockingBypassable = head
    obtain ⟨queued, k⟩ := head
    cases queued with
    | none => rfl
    | some queued =>
      dsimp only
      split
      · split
        · exact bind_alike fun r => bind_alike fun popped => rfl
        · rfl
      · rfl
  unfold simNetworkStack
  cases e.event with
  | paddingSent machine =>
    change (if e.replace = true then _ else _) = Except.map _ (if e.replace = true then _ else _)
    split
    · refine bind_carried hreplace fun r => ?_
      cases r <;> rfl
    · rfl
  | _ => rfl

theorem retrace_applyAction (b : Bool) (d : Duration) (w : Sim R G) (a : TriggerAction Duration) :
    applyAction b d (w.retrace f) a = (applyAction b d w a).map (retrace f) := by
  unfold applyAction
  cases a with
  | cancel machine timer =>
    cases timer with
    | action => exact bind_alike fun xs => congrArg pure (retrace_setSide f w b _)
    | internal => exact bind_alike fun ts => congrArg pure (retrace_setSide f w b _)
    | all => exact bind_alike fun xs => bind_alike fun ts => congrArg pure (retrace_setSide f w b _)
  | sendPadding timeout bypass replace machine =>
    exact bind_alike fun xs => congrArg pure (retrace_setSide f w b _)
  | blockOutgoing timeout duration bypass replace machine =>
    exact bind_alike fun xs => congrArg pure (retrace_setSide f w b _)
  | updateTimer duration replace machine =>
    refine bind_alike fun current => ?_
    rw [show (w.retrace f).currentTime = w.currentTime from rfl]
    dsimp only
    split
    · exact bind_alike fun ts => congrArg (fun w => pure (pushSim w _)) (retrace_setSide f w b _)
    · rfl

theorem retrace_triggerUpdate [RngCore R] (w : Sim R G) (e : SimEvent) :
    (w.retrace f).triggerUpdate e = (w.triggerUpdate e).map (retrace f) := by
  refine bind_alike fun r => ?_
  let s := { w.side e.client with framework := r.2 }
  refine Eq.trans ?_ (foldlM_carried (retrace_applyAction f e.client _ · ·) r.1
    { w.setSide e.client s with rng := _ })
  exact congrArg (fun w : Sim R G => r.1.foldlM (applyAction e.client _) { w with rng := _ })
    (retrace_setSide f w e.client s)

/-- An event crosses the network and is given to its framework. -/
def process [RngCore R] (w : Sim R G) (e : SimEvent) : Exec (Bool × Sim R G) := do
  let (networkActivity, w) ← simNetworkStack { w with currentTime := e.time } e
  let w ← w.triggerUpdate e
  return (networkActivity, w)

/-- What the main loop does with an event that was processed. -/
def conclude (args : SimulatorArgs G) (e : SimEvent) (networkActivity : Bool) (w : Sim R G) :
    Bool × Sim R G :=
  let w := (w.record args e networkActivity).note (.processed e)
  if args.maxTraceLength > 0 ∧ w.trace.length ≥ args.maxTraceLength then (true, w)
  else
    let w := { w with simIterations := w.simIterations + 1 }
    (decide (args.maxSimIterations > 0 ∧ w.simIterations ≥ args.maxSimIterations) ||
      (!args.continueAfterAllNormalPacketsProcessed && w.sq.noNormalPackets), w)

theorem iterate_eq [RngCore R] (args : SimulatorArgs G) {w : Sim R G} {e : SimEvent}
    (htime : w.currentTime ≤ e.time) :
    w.iterate args e = (w.process e).map fun r => r.2.conclude args e r.1 := by
  unfold iterate process
  rw [if_neg (by lia)]
  refine bind_alike fun r => bind_alike fun w => ?_
  change (if _ then _ else _) = Except.ok (conclude args e r.1 w)
  unfold conclude
  dsimp only
  split
  · rfl
  · split
    · rename_i hlimit
      rw [decide_eq_true hlimit]
      rfl
    · rename_i hlimit
      rw [decide_eq_false hlimit, Bool.false_or]
      split
      · rename_i hdone
        rw [hdone]
        rfl
      · rename_i hdone
        rw [Bool.eq_false_of_not_eq_true hdone]
        rfl

theorem retrace_process [RngCore R] (w : Sim R G) (e : SimEvent) :
    (w.retrace f).process e = (w.process e).map fun r => (r.1, r.2.retrace f) := by
  refine bind_carried (retrace_simNetworkStack f { w with currentTime := e.time } e) fun r => ?_
  exact bind_carried (retrace_triggerUpdate f r.2 e) fun w => rfl

/-- The trace and the count of iterations are left to the end of an iteration. -/
theorem process_ok [RngCore R] {w w' : Sim R G} {e : SimEvent} {a : Bool}
    (h : w.process e = .ok (a, w')) :
    a = (e.event == .tunnelSent || e.event == .tunnelRecv) ∧ w'.trace = w.trace ∧
      w'.simIterations = w.simIterations := by
  simp only [process, bind_ok] at h
  obtain ⟨⟨a1, w1⟩, hnet, w2, htrigger, h⟩ := h
  obtain ⟨rfl, rfl⟩ := Prod.mk.inj (pure_ok.mp h)
  have hsends := simNetworkStack_ok hnet
  obtain ⟨_, _, w3, _, _, _, _, hrest, hacted⟩ := triggerUpdate_ok htrigger
  have hsame := hacted.rest.trans hrest
  obtain ⟨hactivity, htrace⟩ := sends_activity hsends
  refine ⟨hactivity, (congrArg (·.2.2.1) hsame).trans htrace, ?_⟩
  refine (congrArg (·.2.2.2.1) hsame).trans ?_
  cases hsends <;> rfl

end Sim

end Retrace

section Select
open Sim

variable {R G : Type}

/-- The first so many of a list, or all of them for 0. -/
def limited (n : Nat) (xs : List α) : List α := if n = 0 then xs else xs.take n

/-- What the settings leave of all that was processed. -/
def SimulatorArgs.select (args : SimulatorArgs G) (processed : List SimEvent) : List SimEvent :=
  limited args.maxTraceLength ((limited args.maxSimIterations processed).filter (Recorded args))

/-- The settings without a limit or a choice of events. -/
def SimulatorArgs.unlimited (args : SimulatorArgs G) : SimulatorArgs G :=
  { args with
    maxTraceLength := 0, maxSimIterations := 0, onlyClientEvents := false
    onlyNetworkActivity := false }

/-- A list that is below a limit, or has none. -/
def Below (n : Nat) (xs : List α) : Prop := n = 0 ∨ xs.length < n

theorem below_nil (n : Nat) : Below n ([] : List α) := n.eq_zero_or_pos

theorem limited_below {n : Nat} {xs : List α} (h : Below n xs) : limited n xs = xs := by
  unfold limited
  rcases h with h | h
  · exact if_pos h
  · rw [List.take_of_length_le (by omega), ite_self]

theorem limited_extends {n : Nat} {xs ys : List α} (h : xs <+: ys) (hn : n = 0 ∨ xs.length ≤ n) :
    xs <+: limited n ys := by
  unfold limited
  split
  · exact h
  · rename_i hpos
    exact List.prefix_take_iff.mpr ⟨h, hn.resolve_left hpos⟩

theorem limited_eq {n : Nat} {xs ys : List α} (h : xs <+: ys) (hpos : n ≠ 0)
    (hn : xs.length = n) : limited n ys = xs := by
  unfold limited
  rw [if_neg hpos, ← hn]
  exact (List.prefix_iff_eq_take.mp h).symm

namespace Sim

/-- The simulation after an event of which all is recorded. -/
def concluded (u : Sim R G) (e : SimEvent) : Sim R G :=
  { u with
    trace := u.trace ++ [e.adjusted], simIterations := u.simIterations + 1
    log := u.log ++ [.processed e] }

theorem recorded_adjusted (args : SimulatorArgs G) (e : SimEvent) :
    Recorded args e.adjusted = Recorded args e := by
  obtain ⟨event, time, delay, client, padding, bypass, replace⟩ := e
  cases event <;> cases padding <;> rfl

theorem conclude_select (args : SimulatorArgs G) (u : Sim R G) (e : SimEvent) :
    (u.retrace (List.filter (Recorded args))).conclude args e
        (e.event == .tunnelSent || e.event == .tunnelRecv) =
      let w := (u.concluded e).retrace (List.filter (Recorded args))
      if args.maxTraceLength > 0 ∧ w.trace.length ≥ args.maxTraceLength then
        (true, { w with simIterations := u.simIterations })
      else (decide (args.maxSimIterations > 0 ∧ w.simIterations ≥ args.maxSimIterations) ||
        (!args.continueAfterAllNormalPacketsProcessed && u.sq.noNormalPackets), w) := by
  have hrecord : ((u.retrace (List.filter (Recorded args))).record args e
      (e.event == .tunnelSent || e.event == .tunnelRecv)).note (.processed e) =
        { (u.concluded e).retrace (List.filter (Recorded args)) with
          simIterations := u.simIterations } := by
    have hnoted (t : List SimEvent) (h : t = (u.trace ++ [e.adjusted]).filter (Recorded args)) :
        { u with trace := t, log := u.log ++ [.processed e] } =
          { (u.concluded e).retrace (List.filter (Recorded args)) with
            simIterations := u.simIterations } :=
      congrArg (fun t => ({ u with trace := t, log := u.log ++ [.processed e] } : Sim R G)) h
    have htrace : (u.trace ++ [e.adjusted]).filter (Recorded args) =
        u.trace.filter (Recorded args) ++ [e.adjusted].filter (Recorded args) :=
      List.filter_append _ _
    rw [List.filter_singleton, recorded_adjusted] at htrace
    unfold record
    change note (if Recorded args e = true then _ else _) _ = _
    split
    · rename_i hrecorded
      rw [hrecorded] at htrace
      exact hnoted _ htrace.symm
    · rename_i hrecorded
      rw [Bool.eq_false_of_not_eq_true hrecorded] at htrace
      exact hnoted _ (htrace.trans (List.append_nil _)).symm
  unfold conclude
  rw [hrecord]
  rfl

/-- With any settings an iteration does what it does without them, up to what it records and
to where it leaves the loop. -/
theorem iterate_select [RngCore R] {args : SimulatorArgs G} {v w : Sim R G} {e : SimEvent}
    {stop : Bool} (h : v.iterate args.unlimited e = .ok (stop, w)) :
    w.trace = v.trace ++ [e.adjusted] ∧ w.simIterations = v.simIterations + 1 ∧
      (v.retrace (List.filter (Recorded args))).iterate args e =
        .ok (if args.maxTraceLength > 0 ∧
            (w.trace.filter (Recorded args)).length ≥ args.maxTraceLength then
          (true, { w.retrace (List.filter (Recorded args)) with simIterations := v.simIterations })
        else (decide (args.maxSimIterations > 0 ∧ w.simIterations ≥ args.maxSimIterations) || stop,
          w.retrace (List.filter (Recorded args)))) := by
  have htime : v.currentTime ≤ e.time := (iterate_ok h).1.forward
  rw [iterate_eq _ htime] at h
  cases hprocess : v.process e with
  | error fault =>
    rw [hprocess] at h
    cases h
  | ok r =>
    obtain ⟨a, u⟩ := r
    obtain ⟨rfl, htrace, hcount⟩ := process_ok hprocess
    rw [hprocess] at h
    obtain ⟨rfl, rfl⟩ := Prod.mk.inj (Except.ok.inj h)
    refine ⟨congrArg (· ++ _) htrace, congrArg (· + 1) hcount, ?_⟩
    rw [iterate_eq args (w := v.retrace (List.filter (Recorded args))) htime, retrace_process,
      hprocess, ← hcount]
    exact congrArg Except.ok (conclude_select args u e)

end Sim

namespace Config

def retrace (f : List SimEvent → List SimEvent) : Config R G → Config R G
  | .picking w => .picking (w.retrace f)
  | .returned e w => .returned e (w.retrace f)
  | .done w => .done (w.retrace f)

variable [RngCore R]

theorem run_done (args : SimulatorArgs G) (fuel : Nat) (w : Sim R G) :
    (Config.done w).run args fuel = .ok w := by cases fuel <;> rfl

/-- A run only adds to its trace. -/
theorem run_trace {args : SimulatorArgs G} {fuel : Nat} {k : Config R G} {w : Sim R G}
    (h : k.run args fuel = .ok w) : k.sim.trace <+: w.trace := by
  have hnext {k k' : Config R G} (h : k.next args = .ok k') : k.sim.trace <+: k'.sim.trace := by
    have hiterates {w w' : Sim R G} {e : SimEvent} (h : Iterates args w e w') :
        w.trace <+: w'.trace := ⟨_, (iterates_trace h).symm⟩
    cases next_ok h with
    | again hpicks => exact hpicks.kept.2.1 ▸ List.prefix_rfl
    | finished hpicks => exact hpicks.kept.2.1 ▸ List.prefix_rfl
    | found hpicks => exact hpicks.kept.2.1 ▸ List.prefix_rfl
    | stay hbody hstay => exact hiterates hbody
    | leave hbody hleave => exact hiterates hbody
    | stopped => exact List.prefix_rfl
  induction fuel generalizing k with
  | zero =>
    cases k with
    | done v => exact Except.ok.inj h ▸ List.prefix_rfl
    | picking v => cases h
    | returned e v => cases h
  | succ fuel ih =>
    have hstep {k : Config R G} (h : (k.next args >>= fun k => k.run args fuel) = .ok w) :
        k.sim.trace <+: w.trace := by
      obtain ⟨k', hk, h⟩ := bind_ok.mp h
      exact (hnext hk).trans (ih h)
    cases k with
    | done v => exact Except.ok.inj h ▸ List.prefix_rfl
    | picking v => exact hstep h
    | returned e v => exact hstep h

theorem next_retrace (args : SimulatorArgs G) (f : List SimEvent → List SimEvent) (v : Sim R G) :
    (picking (v.retrace f)).next args =
      ((picking v).next args.unlimited).map (retrace f) := by
  refine bind_carried (retrace_pickStep f v) fun r => ?_
  obtain ⟨pick, w⟩ := r
  cases pick with
  | again => rfl
  | found e => cases e <;> rfl

/-- The step of `run_select` through the body of the main loop. -/
theorem returned_select {args : SimulatorArgs G} {fuel : Nat} {e : SimEvent} {v w1 w : Sim R G}
    {stop : Bool} (h : v.iterate args.unlimited e = .ok (stop, w1))
    (hrun : (if stop = true then done w1 else picking w1).run args.unlimited fuel = .ok w)
    (hcount : v.simIterations = v.trace.length)
    (hn : Below args.maxTraceLength (v.trace.filter (Recorded args)))
    (hm : Below args.maxSimIterations v.trace)
    (hrest : w1.simIterations = w1.trace.length →
      Below args.maxTraceLength (w1.trace.filter (Recorded args)) →
      Below args.maxSimIterations w1.trace →
      ∃ w', (if stop = true then done (w1.retrace (List.filter (Recorded args)))
          else picking (w1.retrace (List.filter (Recorded args)))).run args fuel = .ok w' ∧
        w'.trace = args.select w.trace) :
    ∃ w', (returned e (v.retrace (List.filter (Recorded args)))).run args (fuel + 1) = .ok w' ∧
      w'.trace = args.select w.trace := by
  obtain ⟨htrace, hiterations, hbody⟩ := iterate_select h
  have hlen : w1.trace.length = v.trace.length + 1 := by
    rw [htrace]
    exact List.length_append
  have hrecorded : (w1.trace.filter (Recorded args)).length ≤
      (v.trace.filter (Recorded args)).length + 1 := by
    rw [htrace, List.filter_append, List.length_append]
    exact Nat.add_le_add_left (List.length_filter_le _ _) _
  have hprefix : w1.trace <+: w.trace := by
    have hsim : (if stop = true then done w1 else picking w1).sim = w1 := by split <;> rfl
    exact hsim ▸ run_trace hrun
  have hrun' {stop : Bool} {w' : Sim R G}
      (hbody : (v.retrace (List.filter (Recorded args))).iterate args e = .ok (stop, w')) :
      (returned e (v.retrace (List.filter (Recorded args)))).run args (fuel + 1) =
        (if stop = true then done w' else picking w').run args fuel := bind_eq (bind_eq hbody)
  unfold Below at hn hm hrest
  split at hbody
  · rename_i hlimit
    have hbelow : args.maxSimIterations = 0 ∨ w1.trace.length ≤ args.maxSimIterations := by omega
    refine ⟨_, (hrun' hbody).trans (run_done args fuel _), ?_⟩
    exact (limited_eq ((limited_extends hprefix hbelow).filter _) (by omega) (by omega)).symm
  · rename_i hlimit
    have hroom : Below args.maxTraceLength (w1.trace.filter (Recorded args)) := by
      unfold Below
      omega
    by_cases hlast : args.maxSimIterations > 0 ∧ w1.simIterations ≥ args.maxSimIterations
    · rw [decide_eq_true hlast, Bool.true_or] at hbody
      refine ⟨_, (hrun' hbody).trans (run_done args fuel _), ?_⟩
      unfold SimulatorArgs.select
      rw [limited_eq hprefix (by omega) (by omega), limited_below hroom]
      rfl
    · rw [decide_eq_false hlast, Bool.false_or] at hbody
      obtain ⟨w', hw', hselected⟩ := hrest (by omega) hroom (by omega)
      exact ⟨w', (hrun' hbody).trans hw', hselected⟩

/-- The settings choose from what is processed without them. -/
theorem run_select (args : SimulatorArgs G) {fuel : Nat} {k : Config R G} {w : Sim R G}
    (h : k.run args.unlimited fuel = .ok w) (hcount : k.sim.simIterations = k.sim.trace.length)
    (hn : Below args.maxTraceLength (k.sim.trace.filter (Recorded args)))
    (hm : Below args.maxSimIterations k.sim.trace) :
    ∃ w', (k.retrace (List.filter (Recorded args))).run args fuel = .ok w' ∧
      w'.trace = args.select w.trace := by
  have hdone {v : Sim R G} {fuel : Nat} (h : (done v).run args.unlimited fuel = .ok w)
      (hn : Below args.maxTraceLength (v.trace.filter (Recorded args)))
      (hm : Below args.maxSimIterations v.trace) :
      ∃ w', (done (v.retrace (List.filter (Recorded args)))).run args fuel = .ok w' ∧
        w'.trace = args.select w.trace := by
    rw [run_done] at h
    obtain rfl := Except.ok.inj h
    refine ⟨_, run_done args fuel _, ?_⟩
    unfold SimulatorArgs.select
    rw [limited_below hm, limited_below hn]
    rfl
  induction fuel generalizing k with
  | zero =>
    cases k with
    | done v => exact hdone h hn hm
    | picking v => cases h
    | returned e v => cases h
  | succ fuel ih =>
    cases k with
    | done v => exact hdone h hn hm
    | picking v =>
      obtain ⟨k', hk, h⟩ := bind_ok.mp (show ((picking v).next args.unlimited >>= _) = _ from h)
      have hkept : k'.sim.trace = v.trace ∧ k'.sim.simIterations = v.simIterations := by
        cases next_ok hk with
        | again hpicks => exact hpicks.kept.2
        | finished hpicks => exact hpicks.kept.2
        | found hpicks => exact hpicks.kept.2
      obtain ⟨w', hw', htrace⟩ := ih h (by rw [hkept.1, hkept.2]; exact hcount)
        (by rw [hkept.1]; exact hn) (by rw [hkept.1]; exact hm)
      refine ⟨w', ?_, htrace⟩
      refine (bind_eq (a := k'.retrace (List.filter (Recorded args))) ?_).trans hw'
      rw [retrace, next_retrace, hk]
      rfl
    | returned e v =>
      obtain ⟨k', hk, h⟩ := bind_ok.mp (show ((returned e v).next args.unlimited >>= _) = _ from h)
      obtain ⟨⟨stop, w1⟩, hiterate, hk⟩ := bind_ok.mp
        (show (v.iterate args.unlimited e >>= _) = _ from hk)
      obtain rfl := pure_ok.mp hk
      refine returned_select hiterate h hcount hn hm fun hcount hn hm => ?_
      cases stop with
      | true => exact ih (k := done w1) h hcount hn hm
      | false => exact ih (k := picking w1) h hcount hn hm

end Config

end Select

end Maybenot

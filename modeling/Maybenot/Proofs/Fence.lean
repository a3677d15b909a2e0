import Maybenot.Proofs.Causal

namespace Maybenot
open Lib

/-- A blocking of a side: when it ends, and whether packets may bypass it. -/
structure Fence where
  expiry : Instant
  bypassable : Bool
deriving DecidableEq

/-- The blocking in force after a `BlockOutgoing` at `time`: the new one if it replaces or ends
later, where one that has ended already ends at `time`. -/
def Fence.rule (fence : Option Fence) (time block : Instant) (bypass replace : Bool) :
    Option Fence :=
  let current := match fence with
    | some f => max f.expiry time
    | none => time
  if replace ∨ block > current then some ⟨block, bypass⟩ else fence

/-- What an entry of the log does to the blocking of a side. -/
def Fence.after (c : Bool) (fence : Option Fence) (s : SimStep) : Option Fence :=
  match s with
  | .blocked client time block bypass replace =>
    if client = c then Fence.rule fence time block bypass replace else fence
  | _ => fence

/-- The blocking that is in force at a side after all that were executed. -/
def fence (c : Bool) (log : List SimStep) : Option Fence := log.foldl (Fence.after c) none

theorem fence_append (c : Bool) (log l : List SimStep) :
    fence c (log ++ l) = l.foldl (Fence.after c) (fence c log) := List.foldl_append

/-- Only blocking changes the blocking in force. -/
theorem fence_other {c : Bool} {log l : List SimStep}
    (h : ∀ s ∈ l, ∀ client time block bypass replace,
      s ≠ .blocked client time block bypass replace) : fence c (log ++ l) = fence c log := by
  rw [fence_append]
  induction l with
  | nil => rfl
  | cons s l ih =>
    have hs : Fence.after c (fence c log) s = fence c log := by
      cases s with
      | blocked client time block bypass replace =>
        exact absurd rfl (h _ List.mem_cons_self client time block bypass replace)
      | _ => rfl
    rw [List.foldl_cons, hs]
    exact ih fun s hs => h s (List.mem_cons_of_mem _ hs)

namespace Sim

variable {R G : Type}

/-- The side whose blocking expires next, if one does before all else. -/
def expiring (w : Sim R G) : Option Bool :=
  match w.queueWait with
  | .ok (q, _, _) =>
    if w.expiryWait.1 ≤ w.actionWait ∧ w.expiryWait.1 ≤ w.timerWait ∧ w.expiryWait.1 ≤ q ∧
        w.expiryWait.1 < w.delayWait then some w.expiryWait.2
    else none
  | .error _ => none

/-- The event that leaves the queue next, if one does before all else. -/
def leaving (w : Sim R G) : Option SimEvent :=
  match w.queueWait with
  | .ok (q, k, c) =>
    if q ≤ w.actionWait ∧ q ≤ w.timerWait ∧ q < w.expiryWait.1 ∧ q < w.delayWait then
      ((w.sq.side c).heap k).peek.map (·.moved k (w.network.aggregateBaseDelay c))
    else none
  | .error _ => none

/-- A packet that the blocking in force at its side holds back. -/
def HeldBack (w : Sim R G) (e : SimEvent) : Prop :=
  match fence e.client w.log with
  | some f => e.time < f.expiry ∧ ¬ (f.bypassable = true ∧ e.bypass = true)
  | none => False

instance (w : Sim R G) (e : SimEvent) : Decidable (w.HeldBack e) := by
  unfold HeldBack
  split <;> infer_instance

/-- The end of a blocking that expires next is reported at once, unless it is now. -/
def EndsOnTime (w : Sim R G) : Prop :=
  match w.expiring with
  | some c => w.expiryWait.1 = (0 : Duration) ∨ ((w.side c).reportingDelay w.rng).1 = 0
  | none => True

instance (w : Sim R G) : Decidable w.EndsOnTime := by
  unfold EndsOnTime
  split <;> infer_instance

/-- A normal packet that leaves next and is to be recorded was not reported late if a blocking held
it back. -/
def LeavesOnTime (args : SimulatorArgs G) (w : Sim R G) : Prop :=
  match w.leaving with
  | some e => e.event = .tunnelSent → e.containsPadding = false → Recorded args e = true →
      w.HeldBack e → e.integrationDelay = 0
  | none => True

instance (args : SimulatorArgs G) (w : Sim R G) : Decidable (w.LeavesOnTime args) := by
  unfold LeavesOnTime
  split <;> infer_instance

/-- The blocking of a side is that in force, which is still there before its end. -/
structure Fenced (c : Bool) (w : Sim R G) (now : Instant) : Prop where
  current : ∀ u, (w.side c).blockingUntil = some u →
    fence c w.log = some ⟨u, (w.side c).blockingBypassable⟩
  active : ∀ f, fence c w.log = some f → now < f.expiry →
    (w.side c).blockingUntil = some f.expiry

theorem Fenced.same {c : Bool} {w w' : Sim R G} {now now' : Instant} (h : Fenced c w now)
    (hs : SameBlocking c w w') (hlog : fence c w'.log = fence c w.log) (hnow : now ≤ now') :
    Fenced c w' now' where
  current u hu := by
    rw [hs.blockingUntil] at hu
    rw [hlog, hs.blockingBypassable]
    exact h.current u hu
  active f hf hlt := by
    rw [hlog] at hf
    rw [hs.blockingUntil]
    exact h.active f hf (hnow.trans_lt hlt)

/-- A blocking that ends no later than it is lifted. -/
theorem Fenced.lifted {c : Bool} {w w' : Sim R G} {now now' u : Instant} (h : Fenced c w now)
    (hu : (w.side c).blockingUntil = some u) (hnone : (w'.side c).blockingUntil = none)
    (hlog : fence c w'.log = fence c w.log) (hnow : u ≤ now') : Fenced c w' now' where
  current x hx := absurd (hnone.symm.trans hx) (by simp)
  active f hf hlt := by
    rw [hlog, h.current u hu] at hf
    obtain rfl := Option.some.inj hf
    exact absurd hlt (not_lt.mpr hnow)

/-- A `BlockOutgoing` does to a side what the rule says. -/
theorem Fenced.blocks {c : Bool} {w w' : Sim R G} {s : SimState R G} {time block : Instant}
    {bypass replace : Bool} (h : Fenced c w w.currentTime) (htime : w.currentTime ≤ time)
    (hu : s.blockingUntil = (w.side c).blockingUntil)
    (hb : s.blockingBypassable = (w.side c).blockingBypassable)
    (hlate : ∀ u, (w.side c).blockingUntil = some u → time ≤ u)
    (hs : w'.side c = s.block time block bypass replace)
    (hlog : w'.log = w.log ++ [.blocked c time block bypass replace]) :
    Fenced c w' w.currentTime := by
  have hcurrent : (match fence c w.log with
      | some f => max f.expiry time
      | none => time) = s.blockingUntil.getD time := by
    rw [hu]
    cases hblocking : (w.side c).blockingUntil with
    | some u =>
      rw [h.current u hblocking]
      exact max_eq_left (hlate u hblocking)
    | none =>
      cases hf : fence c w.log with
      | none => rfl
      | some f =>
        refine max_eq_right (not_lt.mp fun hlt => ?_)
        have hactive := h.active f hf (htime.trans_lt hlt)
        exact absurd (hblocking.symm.trans hactive) (by simp)
  have hfence : fence c w'.log =
      if replace ∨ block > s.blockingUntil.getD time then some ⟨block, bypass⟩
      else fence c w.log := by
    rw [hlog, fence_append, ← hcurrent]
    exact if_pos rfl
  unfold SimState.block at hs
  by_cases hrule : replace ∨ block > s.blockingUntil.getD time
  · rw [if_pos hrule] at hs hfence
    constructor
    · intro u hx
      rw [hs] at hx ⊢
      rw [hfence, Option.some.inj hx]
    · intro f hf _
      rw [hfence] at hf
      rw [hs, ← Option.some.inj hf]
  · rw [if_neg hrule] at hs hfence
    constructor
    · intro u hx
      rw [hs] at hx ⊢
      rw [hfence, hb]
      exact h.current u (hu ▸ hx)
    · intro f hf hlt
      rw [hfence] at hf
      rw [hs, hu]
      exact h.active f hf hlt

theorem expiring_of {w : Sim R G} {q : Wait} {k : Queue} {c' c : Bool} {b : Duration}
    (hq : w.queueWait = .ok (q, k, c')) (hb : w.expiryWait = (↑b, c))
    (hle : b ≤ w.actionWait ∧ b ≤ w.timerWait ∧ b ≤ q) (hn : b < w.delayWait) :
    w.expiring = some c := by
  unfold expiring
  rw [hq, hb]
  exact if_pos ⟨hle.1, hle.2.1, hle.2.2, hn⟩

theorem leaving_of {w : Sim R G} {q : Duration} {k : Queue} {c : Bool} {e : SimEvent}
    (hq : w.queueWait = .ok (↑q, k, c)) (hle : q ≤ w.actionWait ∧ q ≤ w.timerWait)
    (hlt : q < w.expiryWait.1 ∧ q < w.delayWait) (hhead : ((w.sq.side c).heap k).peek = some e) :
    w.leaving = some (e.moved k (w.network.aggregateBaseDelay c)) := by
  unfold leaving
  rw [hq]
  dsimp only
  rw [if_pos ⟨hle.1, hle.2, hlt.1, hlt.2⟩, hhead]
  rfl

/-- The end of the blocking that expires next, and what the integration has to do with it. -/
theorem expiry_ends {w : Sim R G} {q : Wait} {k : Queue} {c' c : Bool} {b delay : Duration} {g : G}
    (hahead : Ahead w w.currentTime) (hgood : w.EndsOnTime)
    (hq : w.queueWait = .ok (q, k, c')) (hb : w.expiryWait = (↑b, c))
    (hle : b ≤ w.actionWait ∧ b ≤ w.timerWait ∧ b ≤ q) (hn : b < w.delayWait)
    (hd : (w.side c).reportingDelay w.rng = (delay, g)) :
    (w.side c).blockingUntil = some (w.currentTime + b) ∧ (b = 0 ∨ delay = 0) := by
  obtain ⟨u, hu, hbu, _⟩ := expiryWait_some hb
  have hnow := hahead.blocking c u hu
  have htime : w.currentTime + b = u := by
    unfold Instant.durationSince at hbu
    lia
  refine ⟨htime ▸ hu, ?_⟩
  unfold EndsOnTime at hgood
  rw [expiring_of hq hb hle hn] at hgood
  dsimp only at hgood
  rw [hb, hd] at hgood
  rcases hgood with h | h
  · exact .inl (WithTop.coe_injective h)
  · exact .inr h

/-- A round of picking lifts no blocking before its end. -/
theorem Fenced.picks {w w' : Sim R G} {p : Pick} (hwf : w.sq.WellFormed)
    (hahead : Ahead w w.currentTime) (hgood : w.EndsOnTime)
    (h : ∀ c, Fenced c w w.currentTime) (hp : Picks w p w') (c : Bool) :
    Fenced c w' (reached w.currentTime p) := by
  have hnow := (hahead.picks hwf hp).1
  cases hp with
  | nothing hq hs hi hb hn => exact h c
  | delayed hq hn hne => exact (h c).same (.of_side rfl) rfl hnow
  | @expiredLater _ _ _ c1 g b delay hq hb hle hn hd hpos =>
    obtain ⟨hu, hend⟩ := expiry_ends hahead hgood hq hb hle hn hd
    have hlog : fence c (w.unblocked b c1 g).log = fence c w.log := by
      rw [(w.unblocked_rest b c1 g).2.2]
      exact fence_other (by simp)
    have hside := unblocked_side w b c1 c g
    by_cases hc : c = c1
    · subst hc
      rw [if_pos rfl] at hside
      apply (h c).lifted hu ((congrArg _ (pushSim_side _ _ c)).trans (congrArg _ hside)) hlog
      change w.currentTime + b ≤ w.currentTime
      rcases hend with rfl | rfl
      · lia
      · exact absurd hpos (Nat.lt_irrefl 0)
    · rw [if_neg hc] at hside
      exact (h c).same (.of_side ((pushSim_side _ _ c).trans hside)) hlog hnow
  | @expiredNow _ _ _ c1 g next b hq hb hle hn hd hnext =>
    obtain ⟨hu, _⟩ := expiry_ends hahead hgood hq hb hle hn hd
    have hlog : fence c ((w.unblocked b c1 g).note (.picked next next)).log = fence c w.log := by
      unfold note
      rw [(w.unblocked_rest b c1 g).2.2, List.append_assoc]
      exact fence_other (by simp)
    have hside := unblocked_side w b c1 c g
    by_cases hc : c = c1
    · subst hc
      rw [if_pos rfl] at hside
      refine (h c).lifted hu (congrArg _ hside) hlog ?_
      subst hnext
      change w.currentTime + b ≤ w.currentTime + (b : Int) + (0 : Nat)
      lia
    · rw [if_neg hc] at hside
      exact (h c).same (.of_side hside) hlog hnow
  | queued hq hle hlt hhead hqueued hnext =>
    exact (h c).same (.of_side rfl) (fence_other (by simp)) hnow
  | timer hq hi hle hlt hdue =>
    exact (h c).same ((timerFired_blocking w _ _ c).trans (.of_side (pushSim_side _ _ c)))
      (congrArg (fence c) (setSide_log ..)) hnow
  | @padding _ _ _ c1 _ a actions _ _ _ _ _ g s hq hs hlt hdue ha hd =>
    have hsame := actionFired_blocking w c1 actions c
    exact (h c).same (hsame.trans (.of_side (by cases c <;> cases c1 <;> rfl)))
      (congrArg (fence c) (setSide_log ..)) hnow
  | @block _ _ _ c1 _ a actions _ duration bypass replace m _ _ _ g x s hq hs hlt hdue ha hd hd' hx =>
    let step := SimStep.blocked c1 a.time (a.time + duration) bypass replace
    have hlog := (blockFired_rest w c1 x g step).2.2
    have hside := blockFired_side w c1 c x g step
    by_cases hc : c = c1
    · subst hc
      rw [if_pos rfl] at hside
      obtain ⟨htime, _⟩ := takeDue_side (f := (·.scheduledAction)) hdue
      change a.time = w.currentTime + s at htime
      refine (h c).blocks (s := { w.side c with scheduledAction := actions }) (by lia) rfl rfl ?_
        (((pushSim_side _ _ c).trans hside).trans hx) hlog
      intro u hu
      have hlate := hlt.2.2.1.trans_le (expiryWait_le hu)
      have hd := WithTop.coe_lt_coe.mp hlate
      unfold Instant.durationSince at hd
      lia
    · rw [if_neg hc] at hside
      refine (h c).same (.of_side ((pushSim_side _ _ c).trans hside)) ?_ hnow
      apply (congrArg (fence c) hlog).trans
      rw [fence_append]
      exact if_neg fun heq => hc heq.symm

/-- A packet that leaves is past the end of the blocking in force, or bypasses it. -/
theorem leaves_after {w : Sim R G} {q : Duration} {k : Queue} {c : Bool} {e queued next : SimEvent}
    {f : Fence} (hwf : w.sq.WellFormed) (h : ∀ c, Fenced c w w.currentTime)
    (hq : w.queueWait = .ok (↑q, k, c)) (hhead : ((w.sq.side c).heap k).peek = some e)
    (hqueued : queued = e.moved k (w.network.aggregateBaseDelay c))
    (hnext : next = queued.forward (w.currentTime + q)) (hev : next.event = .tunnelSent)
    (hf : fence next.client w.log = some f)
    (hb : ¬ (f.bypassable = true ∧ next.bypass = true)) : f.expiry ≤ next.time := by
  by_contra hlt
  have htime := picked_time hwf hq hhead hqueued hnext
  have hmem := BinaryHeap.peek_mem hhead
  obtain ⟨hhome, hclient⟩ := hwf c k e hmem
  obtain ⟨hevent, hcl, _⟩ := Config.picked_same hqueued hnext
  have hbypass : next.bypass = e.bypass := by
    rw [hnext, hqueued]
    unfold SimEvent.forward SimEvent.moved
    split <;> split <;> rfl
  rw [hcl, hclient] at hf
  rw [hbypass] at hb
  have hactive := (h c).active f hf (by lia)
  have hflag : f.bypassable = (w.side c).blockingBypassable := by
    have hcurrent := (h c).current _ hactive
    rw [hf] at hcurrent
    exact congrArg Fence.bypassable (Option.some.inj hcurrent)
  have hsent : e.event = .tunnelSent := hevent.symm.trans hev
  have hk : k ≠ .base := by
    rintro rfl
    exact absurd ((EventQueue.home_base hhome).symm.trans hsent) (by simp)
  have hheld : w.view.Held c e := by
    refine ⟨hsent, ?_, ?_⟩
    · rw [view_side, hactive]
      rfl
    · rw [view_side, ← hflag]
      exact hb
  have hwait := held_wait hk hheld hactive
  rw [← queueWait_head hwf hq hhead] at hwait
  unfold Instant.durationSince at hwait
  lia

end Sim

namespace Config
open Sim

variable {R G : Type} [RngCore R]

/-- Wherever the next event is picked, a blocking ends on time and packets leave on time. -/
def Punctual (args : SimulatorArgs G) : Config R G → Prop
  | .picking w => w.EndsOnTime ∧ w.LeavesOnTime args
  | _ => True

instance (args : SimulatorArgs G) (cfg : Config R G) : Decidable (cfg.Punctual args) :=
  match cfg with
  | .picking w => inferInstanceAs (Decidable (w.EndsOnTime ∧ w.LeavesOnTime args))
  | .returned _ _ | .done _ => inferInstanceAs (Decidable True)

theorem iterates_fence {args : SimulatorArgs G} {w w' : Sim R G} {e : SimEvent}
    (h : Iterates args w e w') (c : Bool) : fence c w'.log = fence c w.log := by
  obtain ⟨a, w1, hs, _, hlog⟩ := iterates_counts h
  have hsends : fence c w1.log = fence c w.log := by
    cases hs with
    | normal | padded | sent | received | apart => rfl
    | kept => exact fence_other (by simp)
    | swapped => exact fence_other (by simp)
  rw [hlog, ← hsends]
  exact fence_other (by simp)

/-- In a run that is punctual the blocking in force is there until it ends. -/
theorem run_fenced {args : SimulatorArgs G} {sq : SimQueue} (hwf : sq.WellFormed)
    {cfg : Config R G} (h : ReachableBy (Punctual args) args sq cfg) (c : Bool) :
    Fenced c cfg.sim cfg.now := by
  suffices hall : ∀ c, Fenced c cfg.sim cfg.now from hall c
  refine h.invariant_of (P := fun cfg => ∀ c, Fenced c cfg.sim cfg.now) ?_ ?_
  · rintro cfg ⟨_, _, _, _, _, w, hstart, rfl⟩ c
    obtain ⟨_, hclient, hserver, _, _, _, _, _, hlog⟩ := start_ok hstart
    have hnone : (w.side c).blockingUntil = none := by
      cases c
      · exact (new_state hserver).2.1
      · exact (new_state hclient).2.1
    constructor
    · intro u hu
      exact absurd (hnone.symm.trans hu) (by simp)
    · intro f hf
      change fence c w.log = some f at hf
      rw [hlog] at hf
      exact absurd hf (by simp [fence])
  · rintro cfg cfg' hr hfenced ⟨hgood, hnext⟩ c
    have hq : cfg.sim.sq.WellFormed := reachable_wellFormed hr hwf
    have hahead := (run_ahead hwf (hr.mono fun _ _ hst => ⟨trivial, hst.2⟩)).2
    cases cfg with
    | picking w =>
      obtain ⟨p, w', hstep, rfl⟩ := next_picking hnext
      have hpicks := pickStep_ok hstep
      rw [place_sim, place_now hpicks.kept.1]
      exact Fenced.picks hq hahead hgood.1 hfenced hpicks c
    | returned e w =>
      obtain ⟨stop, w', hit, _, hcfg⟩ := next_returned hnext
      have hiterates := (iterate_ok hit).1
      have hhears := iterates_hears hiterates c
      have hw' : Fenced c w' w'.currentTime := by
        constructor
        · intro u hu
          rw [hhears.blockingUntil] at hu
          rw [iterates_fence hiterates, hhears.blockingBypassable]
          exact (hfenced c).current u hu
        · intro f hf hlt
          rw [iterates_fence hiterates] at hf
          rw [hhears.time] at hlt
          rw [hhears.blockingUntil]
          exact (hfenced c).active f hf hlt
      rcases hcfg with rfl | rfl <;> exact hw'
    | done w => exact pure_ok.mp hnext ▸ hfenced c

theorem forward_rest (e : SimEvent) (t : Instant) : (e.forward t).event = e.event ∧
    (e.forward t).client = e.client ∧ (e.forward t).bypass = e.bypass ∧
    (e.forward t).containsPadding = e.containsPadding ∧
    (e.forward t).integrationDelay = e.integrationDelay := by
  unfold SimEvent.forward
  split <;> exact ⟨rfl, rfl, rfl, rfl, rfl⟩

/-- A packet that is sent came out of the queue in a round of picking. -/
theorem returned_queued {good : Config R G → Prop} {args : SimulatorArgs G} {sq : SimQueue}
    {e : SimEvent} {w : Sim R G} (h : ReachableBy good args sq (.returned e w))
    (he : e.event = .tunnelSent) :
    ∃ (w0 : Sim R G) (queued : SimEvent), ReachableBy good args sq (.picking w0) ∧
      good (.picking w0) ∧ w0.leaving = some queued ∧ w.log = w0.log ++ [.picked queued e] ∧
      (∃ t, e = queued.forward t) ∧ ∀ f, (∀ c, Fenced c w0 w0.currentTime) → w0.sq.WellFormed →
        fence e.client w0.log = some f → ¬ (f.bypassable = true ∧ e.bypass = true) →
        f.expiry ≤ e.time := by
  cases h with
  | start hs =>
    obtain ⟨_, _, _, _, _, _, _, hcfg⟩ := hs
    exact absurd hcfg (by simp)
  | @next cfg _ hr hst =>
    obtain ⟨hgood, hrun⟩ := hst
    cases cfg with
    | picking w0 =>
      obtain ⟨p, w1, hstep, hplace⟩ := next_picking hrun
      have hp : p = .found (some e) ∧ w1 = w := by
        rcases p with _ | ⟨_ | x⟩
        · exact absurd hplace (by simp [place])
        · exact absurd hplace (by simp [place])
        · injection hplace with h1 h2
          exact ⟨by rw [h1], h2.symm⟩
      obtain ⟨rfl, rfl⟩ := hp
      cases pickStep_ok hstep with
      | expiredNow hq hb hle hn hd hended =>
        rw [hended] at he
        exact absurd he (by simp [blockingEnded])
      | @queued k c head queued _ q hq hle hlt hhead hqueued hforward =>
        refine ⟨w0, queued, hr, hgood, ?_, rfl, ⟨_, hforward⟩, ?_⟩
        · rw [leaving_of hq hle hlt hhead, hqueued]
        · intro f hfenced hwf hf hb
          exact leaves_after hwf hfenced hq hhead hqueued hforward he hf hb
    | returned e' w0 =>
      obtain ⟨_, w', _, _, hcfg⟩ := next_returned hrun
      rcases hcfg with hcfg | hcfg <;> exact absurd hcfg (by simp)
    | done w0 => exact absurd (pure_ok.mp hrun) (by simp)

/-- In a punctual run no packet that does not bypass the blocking in force leaves before its end,
and none that it held back is recorded before it. -/
theorem blocking_fail_closed {args : SimulatorArgs G} {sq : SimQueue} (hsq : sq.Built)
    {e : SimEvent} {w : Sim R G} (h : ReachableBy (Punctual args) args sq (.returned e w))
    (he : e.event = .tunnelSent) {f : Fence} (hf : fence e.client w.log = some f)
    (hb : ¬ (f.bypassable = true ∧ e.bypass = true)) :
    f.expiry ≤ e.time ∧
    (Recorded args e = true → ∀ queued, w.log.getLast? = some (.picked queued e) →
      queued.time < f.expiry → f.expiry ≤ e.adjusted.time) ∧
    ∀ stop w', w.iterate args e = .ok (stop, w') →
      w'.trace = w.trace ++ ([e].filter (Recorded args)).map (·.adjusted) := by
  obtain ⟨w0, queued, hr, ⟨_, honTime⟩, hleaving, hlog, ⟨t, hforward⟩, hafter⟩ :=
    returned_queued h he
  have hwf := hsq.wellFormed
  have hf0 : fence e.client w0.log = some f := by
    rw [← hf, hlog]
    exact (fence_other (by simp)).symm
  have hleft : f.expiry ≤ e.time :=
    hafter f (fun c => run_fenced hwf hr c) (reachable_wellFormed hr hwf) hf0 hb
  refine ⟨hleft, ?_, fun stop w' hit => iterates_trace (iterate_ok hit).1⟩
  intro hrecorded queued' hlast htime
  have hsame : queued' = queued := by
    rw [hlog, List.getLast?_concat] at hlast
    exact (SimStep.picked.inj (Option.some.inj hlast)).1.symm
  subst hsame
  obtain ⟨hev, hcl, hby, hpad, hdelay⟩ := forward_rest queued' t
  rw [← hforward] at hev hcl hby hpad hdelay
  have hheld : w0.HeldBack queued' := by
    unfold HeldBack
    rw [← hcl, hf0, ← hby]
    exact ⟨htime, hb⟩
  unfold LeavesOnTime at honTime
  rw [hleaving] at honTime
  cases hpadding : e.containsPadding with
  | true =>
    have hadjusted : e.adjusted.time = e.time + e.integrationDelay := by
      simp [SimEvent.adjusted, he, hpadding]
    lia
  | false =>
    have hadjusted : e.adjusted.time = e.time - e.integrationDelay := by
      simp [SimEvent.adjusted, he, hpadding]
    have hrecorded' : Recorded args queued' = true := by
      unfold Recorded at hrecorded ⊢
      rw [← hev, ← hcl]
      exact hrecorded
    have hzero := honTime (hev.symm.trans he) (hpad.symm.trans hpadding) hrecorded' hheld
    rw [hadjusted, hdelay, hzero]
    lia

/-- Two packets that the client sends, a microsecond apart. -/
def twoSent : SimQueue := oneSent.push .normalSent true false 1000 0

/-- A client that reports what happened so much later. -/
def reporting (delay : Duration) : SimulatorArgs Unit :=
  { (.new ⟨10, none⟩ 0 true : SimulatorArgs Unit) with
    clientIntegration := some ⟨fun g => (0, g), fun g => (delay, g), fun g => (0, g)⟩ }

/-- The packet that comes out of the queue after `n` steps where the client blocks for five
microseconds after its first one: when it leaves, whether it may bypass the blocking in force,
which that is, and whether the run was punctual. -/
def sentAt (delay : Duration) (n : Nat) :
    Option (Instant × Bool × Option Fence × Bool) := do
  let w ← (Sim.start [blocker 5] [] twoSent (reporting delay) () () ()).toOption
  match ← ((Config.picking w).after (reporting delay) n).toOption with
  | .returned e w' =>
    if e.event = .tunnelSent ∧ e.client = true then
      return (e.time, e.bypass, fence true w'.log,
        stays (Punctual (reporting delay)) (reporting delay) n (.picking w))
    else none
  | _ => none

theorem sentAt_some {delay : Duration} {n : Nat} {time : Instant} {bypass good : Bool}
    {f : Option Fence} (h : sentAt delay n = some (time, bypass, f, good)) :
    ∃ (w : Sim Unit Unit) (e : SimEvent) (w' : Sim Unit Unit),
      Sim.start [blocker 5] [] twoSent (reporting delay) () () () = .ok w ∧
      (Config.picking w).after (reporting delay) n = .ok (.returned e w') ∧
      e.event = .tunnelSent ∧ e.client = true ∧ e.time = time ∧ e.bypass = bypass ∧
      fence true w'.log = f ∧
      stays (Punctual (reporting delay)) (reporting delay) n (.picking w) = good := by
  unfold sentAt at h
  simp only [Option.bind_eq_bind, Option.bind_eq_some_iff, toOption_eq_some] at h
  obtain ⟨w, hstart, cfg, hafter, hcfg⟩ := h
  cases cfg with
  | returned e w' =>
    by_cases hsent : e.event = .tunnelSent ∧ e.client = true
    · obtain ⟨htime, hbypass, hf, hgood⟩ := by simpa [hsent] using hcfg
      exact ⟨w, e, w', hstart, hafter, hsent.1, hsent.2, htime, hbypass, hf, hgood⟩
    · exact absurd hcfg (by simp [hsent])
  | picking w' => exact absurd hcfg (by simp)
  | done w' => exact absurd hcfg (by simp)

/-- The end of a blocking that is reported late lets a packet leave four microseconds early. -/
theorem blocking_fails_open : ∃ (e : SimEvent) (w : Sim Unit Unit) (f : Fence),
    Reachable (reporting 5000) twoSent (.returned e w) ∧ e.event = .tunnelSent ∧
    fence e.client w.log = some f ∧ ¬ (f.bypassable = true ∧ e.bypass = true) ∧
    e.time < f.expiry := by
  have hrun : sentAt 5000 13 = some (1000, false, some ⟨5000, false⟩, false) := by decide +kernel
  obtain ⟨w, e, w', hstart, hafter, hsent, hclient, htime, hbypass, hf, _⟩ := sentAt_some hrun
  have hreach := after_reachable (.start ⟨[blocker 5], [], (), (), (), w, hstart, rfl⟩) hafter
  refine ⟨e, w', ⟨5000, false⟩, hreach, hsent, hclient ▸ hf, ?_, ?_⟩
  · simp
  · rw [htime]
    decide

/-- Reported at once, the packet leaves when the blocking ends. -/
theorem blocking_holds : ∃ (e : SimEvent) (w : Sim Unit Unit) (f : Fence),
    ReachableBy (Punctual (reporting 0)) (reporting 0) twoSent (.returned e w) ∧
    fence e.client w.log = some f ∧ f.expiry ≤ e.time := by
  have hrun : sentAt 0 18 = some (5000, false, some ⟨5000, false⟩, true) := by decide +kernel
  obtain ⟨w, e, w', hstart, hafter, hsent, hclient, _, _, hf, hgood⟩ := sentAt_some hrun
  have hreach : ReachableBy (Punctual (reporting 0)) (reporting 0) twoSent (.returned e w') :=
    stays_reachable (.start ⟨[blocker 5], [], (), (), (), w, hstart, rfl⟩) hgood hafter
  have hbase : twoSent.BaseTrace := .push (.push .new ..) ..
  have hfence : fence e.client w'.log = some ⟨5000, false⟩ := hclient ▸ hf
  exact ⟨e, w', _, hreach, hfence,
    (blocking_fail_closed hbase.built hreach hsent hfence (by simp)).1⟩

end Config

end Maybenot

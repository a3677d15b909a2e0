import Maybenot.Proofs.Blocking
import Maybenot.Proofs.Conserved

namespace Maybenot.Config
open Lib Sim

variable {R G : Type}

/-- The time of the simulation, where an event that was picked has come already. -/
def now : Config R G → Instant
  | .returned e _ => e.time
  | .picking w | .done w => w.currentTime

/-- Between events: a framework takes a side to be blocked if it is, except that the
beginning may not have come to it yet. -/
structure Settled (c : Bool) (w : Sim R G) : Prop where
  active : (w.side c).framework.blockingActive = true → (w.side c).blockingUntil.isSome
  blocked : (w.side c).blockingUntil.isSome →
    (w.side c).framework.blockingActive = true ∨ ∃ y ∈ w.internal c, y.isBegin = true

/-- The invariant of the blocking of a side, without delays of the integration. -/
structure InSync (c : Bool) (cfg : Config R G) : Prop where
  direct : (cfg.sim.side c).integration = none
  /-- A beginning that is queued is ahead of the end. -/
  begins : ∀ y ∈ cfg.sim.internal c, y.isBegin = true →
    cfg.now ≤ y.time ∧ ∃ u, (cfg.sim.side c).blockingUntil = some u ∧ y.time < u
  noEnd : ∀ y ∈ cfg.sim.internal c, y.event ≠ .blockingEnd
  settled : match cfg with
    | .returned e w =>
      if e.client = c ∧ e.event = .blockingEnd then (w.side c).blockingUntil = none
      else if e.client = c ∧ e.isBegin = true then (w.side c).blockingUntil.isSome = true
      else Settled c w
    | .picking w | .done w => Settled c w

theorem Settled.same {c : Bool} {w w' : Sim R G} (h : Settled c w) (hs : SameBlocking c w w')
    (hmem : ∀ y : SimEvent, y ∈ w.internal c → y.isBegin = true → y ∈ w'.internal c) :
    Settled c w' := by
  refine ⟨?_, ?_⟩
  · rw [hs.framework, hs.blockingUntil]
    exact h.active
  · rw [hs.framework, hs.blockingUntil]
    intro hu
    rcases h.blocked hu with ha | ⟨y, hy, hb⟩
    · exact .inl ha
    · exact .inr ⟨y, hmem y hy hb, hb⟩

/-- A round of picking that leaves the blocking of a side alone. -/
theorem InSync.quiet {c : Bool} {w w' : Sim R G} (h : InSync c (.picking w))
    (hs : SameBlocking c w w') (ht : w'.currentTime = w.currentTime)
    (hmem : ∀ y : SimEvent, y.Signals → (y ∈ w'.internal c ↔ y ∈ w.internal c)) :
    InSync c (.picking w') where
  direct := hs.integration.trans h.direct
  begins y hy hb := by
    obtain ⟨hnow, hu⟩ := h.begins y ((hmem y (.inl hb)).mp hy) hb
    refine ⟨?_, ?_⟩
    · change w'.currentTime ≤ y.time
      rw [ht]
      exact hnow
    · change ∃ u, (w'.side c).blockingUntil = some u ∧ y.time < u
      rw [hs.blockingUntil]
      exact hu
  noEnd y hy he := h.noEnd y ((hmem y (.inr he)).mp hy) he
  settled := Settled.same h.settled hs fun y hy hb => (hmem y (.inl hb)).mpr hy

theorem internal_push_quiet {w : Sim R G} {e : SimEvent} (he : ¬ e.Signals) {c : Bool}
    {y : SimEvent} (hy : y.Signals) : y ∈ (w.pushSim e).internal c ↔ y ∈ w.internal c := by
  rw [internal_pushSim]
  constructor
  · rintro (⟨rfl, _⟩ | hmem)
    · exact absurd hy he
    · exact hmem
  · exact .inr

theorem InSync.pushed {c : Bool} {w v : Sim R G} (h : InSync c (.picking w))
    (hs : SameBlocking c w v) (ht : v.currentTime = w.currentTime) (hsq : v.sq = w.sq)
    {e : SimEvent} (he : ¬ e.Signals) : InSync c (.picking (v.pushSim e)) := by
  apply h.quiet (hs.trans (.of_side (pushSim_side v e c))) ht
  intro y hy
  rw [internal_push_quiet he hy, internal, hsq]
  rfl

/-- The wait for an event inside the framework's side. -/
theorem internal_wait {w : Sim R G} (hwf : w.sq.WellFormed) {c : Bool} {y : SimEvent}
    (hy : y ∈ w.internal c) :
    w.view.wait c .internal y = Instant.durationSince y.time w.currentTime := by
  have hfree : ¬ w.view.Held c y :=
    View.not_held (v := w.view) hwf (k := .internal) hy (.inl rfl)
  rw [wait_free hfree, y.moved_of_ne _ (by simp)]

/-- An event inside the framework's side that is not past is not before the wait chosen. -/
theorem internal_after {w : Sim R G} (hwf : w.sq.WellFormed) {x : Wait} {k : Queue} {c' : Bool}
    (hq : w.queueWait = .ok (x, k, c')) {d : Duration} (hx : d ≤ x) (hother : d ≤ w.otherWait)
    {c : Bool} {y : SimEvent} (hy : y ∈ w.internal c) (hnow : w.currentTime ≤ y.time) :
    w.currentTime + d ≤ y.time := by
  have hle := chosen_le hwf hq hx hother (j := .internal) hy (by simp)
  rw [internal_wait hwf hy] at hle
  unfold Instant.durationSince at hle
  lia

/-- The scheduled action that comes before all else that can happen, with its side. -/
def dueAction (w : Sim R G) : Option (Bool × ScheduledAction) :=
  match w.queueWait with
  | .ok (q, _, _) =>
    if w.actionWait < w.timerWait ∧ w.actionWait < q ∧ w.actionWait < w.expiryWait.1 ∧
        w.actionWait < w.delayWait then
      (takeDue (·.time) (w.currentTime + w.actionWait.untopD 0) w.client.scheduledAction
        w.server.scheduledAction).map fun (c, _, a, _) => (c, a)
    else none
  | .error _ => none

/-- A blocking that begins anew, or replaces another, is to end after the beginnings that are
still queued, its own among them. -/
def EndsLater (w : Sim R G) (c : Bool) (a : ScheduledAction) : Prop :=
  match a.action with
  | .blockOutgoing _ duration _ replace _ =>
    replace = true ∨ (w.side c).blockingUntil = none →
      0 < duration ∧ ∀ y ∈ w.internal c, y.isBegin = true → y.time < a.time + duration
  | _ => True

instance (w : Sim R G) (c : Bool) (a : ScheduledAction) : Decidable (EndsLater w c a) := by
  unfold EndsLater
  split <;> infer_instance

/-- The blocking that is executed next, if any, ends later than it begins. -/
def BlocksLong : Config R G → Prop
  | .picking w =>
    match dueAction w with
    | some (c, a) => EndsLater w c a
    | none => True
  | _ => True

instance (cfg : Config R G) : Decidable cfg.BlocksLong := by
  unfold BlocksLong
  split
  · split <;> infer_instance
  · infer_instance

/-- No beginning is queued when a blocking expires. -/
theorem expired_begins {w : Sim R G} (hwf : w.sq.WellFormed) {c : Bool}
    (h : InSync c (.picking w)) {q : Wait} {k : Queue} {c' : Bool} {b : Duration}
    (hq : w.queueWait = .ok (q, k, c')) (hb : w.expiryWait = (↑b, c)) (hle : b ≤ q)
    (hother : b ≤ w.otherWait) : ∀ y ∈ w.internal c, ¬ y.isBegin = true := by
  intro y hy hbegin
  obtain ⟨hnow, u, hu, hlt⟩ := h.begins y hy hbegin
  obtain ⟨u', hu', rfl, _⟩ := expiryWait_some hb
  obtain rfl := Option.some.inj (hu'.symm.trans hu)
  have hafter := internal_after hwf hq hle hother hy hnow
  have hcur : w.currentTime ≤ y.time := hnow
  unfold Instant.durationSince at hafter
  lia

theorem dueAction_of {w : Sim R G} {q : Wait} {k : Queue} {c' c : Bool} {s : Duration} {i : Nat}
    {a : ScheduledAction} {actions : List (Option ScheduledAction)}
    (hq : w.queueWait = .ok (q, k, c')) (hs : w.actionWait = s)
    (hlt : s < w.timerWait ∧ s < q ∧ s < w.expiryWait.1 ∧ s < w.delayWait)
    (hdue : takeDue (·.time) (w.currentTime + s) w.client.scheduledAction
      w.server.scheduledAction = some (c, i, a, actions)) : dueAction w = some (c, a) := by
  unfold dueAction
  rw [hq, hs]
  dsimp only
  rw [if_pos hlt]
  exact congrArg _ hdue

/-- A side that executes a `BlockOutgoing` is blocked until after all beginnings. -/
theorem block_lasts {w : Sim R G} {c : Bool} {s : SimState R G} {a : ScheduledAction}
    {timeout duration : Duration} {bypass replace : Bool} {m : MachineId}
    (h : InSync c (.picking w)) (ha : a.action = .blockOutgoing timeout duration bypass replace m)
    (hs : s.blockingUntil = (w.side c).blockingUntil) (hends : EndsLater w c a)
    (hbefore : ∀ u, (w.side c).blockingUntil = some u → a.time < u) :
    ∃ u, (s.block a.time (a.time + duration) bypass replace).blockingUntil = some u ∧
      a.time < u ∧ ∀ y ∈ w.internal c, y.isBegin = true → y.time < u := by
  unfold EndsLater at hends
  rw [ha] at hends
  dsimp only at hends
  rw [block_blockingUntil, hs]
  by_cases hnew : replace = true ∨ (w.side c).blockingUntil = none
  · obtain ⟨hpos, hall⟩ := hends hnew
    have hahead : a.time < a.time + duration := by lia
    refine ⟨_, if_pos ?_, hahead, hall⟩
    rcases hnew with hr | hu
    · exact .inl hr
    · rw [hu]
      exact .inr hahead
  · obtain ⟨u, hu⟩ := Option.ne_none_iff_exists'.mp fun hu => hnew (.inr hu)
    have hr : ¬ replace = true := fun hr => hnew (.inl hr)
    have hlt := hbefore u hu
    have hall : ∀ y ∈ w.internal c, y.isBegin = true → y.time < u := by
      intro y hy hb
      obtain ⟨_, u', hu', hyu⟩ := h.begins y hy hb
      obtain rfl := Option.some.inj (hu'.symm.trans hu)
      exact hyu
    rw [hu]
    by_cases hlong : a.time + duration > u
    · refine ⟨_, if_pos (.inr hlong), hlt.trans hlong, ?_⟩
      intro y hy hb
      exact (hall y hy hb).trans hlong
    · refine ⟨u, if_neg ?_, hlt, hall⟩
      rintro (h | h)
      · exact hr h
      · exact hlong h

/-- A `BlockOutgoing` fires: its side is blocked until after its beginning. -/
theorem sync_block {w : Sim R G} {c1 : Bool} {s x : SimState R G} {g : G} {t block : Instant}
    {bypass replace : Bool} {m : MachineId} (h : ∀ c, InSync c (.picking w))
    (hx : x = s.block t block bypass replace) (hsi : s.integration = (w.side c1).integration)
    (hu : ∃ u, x.blockingUntil = some u ∧ t < u ∧
      ∀ y ∈ w.internal c1, y.isBegin = true → y.time < u)
    (ht : w.currentTime ≤ t) (c : Bool) :
    InSync c (.picking ((w.blockFired c1 x g (.blocked c1 t block bypass replace)).pushSim
      (blockingBegun c1 m t 0 x.blockingBypassable))) := by
  obtain ⟨hsq, htime, _⟩ := w.blockFired_rest c1 x g (.blocked c1 t block bypass replace)
  have hside := w.blockFired_side c1 c x g (.blocked c1 t block bypass replace)
  have hmem {y : SimEvent} : y ∈ ((w.blockFired c1 x g (.blocked c1 t block bypass replace)).pushSim
      (blockingBegun c1 m t 0 x.blockingBypassable)).internal c ↔
      (y = blockingBegun c1 m t 0 x.blockingBypassable ∧ c = c1) ∨ y ∈ w.internal c := by
    rw [internal_pushSim, internal, hsq]
    simp [blockingBegun, SimEvent.home, internal]
  by_cases hc : c = c1
  · subst hc
    rw [if_pos rfl] at hside
    obtain ⟨u, hu, hlt, hall⟩ := hu
    refine ⟨?_, ?_, ?_, ?_, ?_⟩
    · change ((Sim.pushSim _ _).side c).integration = none
      rw [pushSim_side, hside, hx, (block_rest ..).1, hsi]
      exact (h c).direct
    · intro y hy hbegin
      change _ ≤ y.time ∧ ∃ u, ((Sim.pushSim _ _).side c).blockingUntil = some u ∧ y.time < u
      rw [pushSim_side, hside]
      rcases hmem.mp hy with ⟨rfl, _⟩ | hy
      · have hnow : w.currentTime ≤ t + (0 : Nat) := by lia
        have hahead : t + (0 : Nat) < u := by lia
        exact ⟨htime.trans_le hnow, u, hu, hahead⟩
      · exact ⟨htime.trans_le ((h c).begins y hy hbegin).1, u, hu, hall y hy hbegin⟩
    · intro y hy
      rcases hmem.mp hy with ⟨rfl, _⟩ | hy
      · simp [blockingBegun]
      · exact (h c).noEnd y hy
    · rw [pushSim_side, hside, hu]
      simp
    · intro _
      exact .inr ⟨_, hmem.mpr (.inl ⟨rfl, rfl⟩), rfl⟩
  · rw [if_neg hc] at hside
    refine (h c).quiet (.of_side ((pushSim_side _ _ _).trans hside)) htime fun y _ => ?_
    rw [hmem]
    exact ⟨fun hy => hy.resolve_left fun hy => hc hy.2, .inr⟩

theorem sync_picking {w w' : Sim R G} (h : ∀ c, InSync c (.picking w))
    (hgood : (Config.picking w).BlocksLong) (hstep : w.pickStep = .ok (.again, w'))
    (c : Bool) : InSync c (.picking w') := by
  have hpicks := pickStep_ok hstep
  have hkept := hpicks.kept.1
  have hint (c : Bool) : (w.side c).integration = none := (h c).direct
  generalize hp : Pick.again = p at hpicks
  cases hpicks with
  | nothing | queued | expiredNow => exact absurd hp (by simp)
  | delayed hq hn hne =>
    exact (h c).quiet (.of_side (by cases c <;> rfl)) rfl fun _ _ => Iff.rfl
  | expiredLater hq hb hle hn hd hpos =>
    rw [(draw_none (hint _) _).1] at hd
    exact absurd (Prod.mk.inj hd).1 hpos.ne
  | timer hq hi hle hlt hdue =>
    exact (h c).pushed (timerFired_blocking w _ _ c) hkept (setSide_sq ..)
      (by simp [SimEvent.Signals, SimEvent.isBegin])
  | @padding _ _ _ c1 _ a actions _ _ _ _ d g s hq hs hlt hdue ha hd =>
    have hsame := actionFired_blocking w c1 actions c
    exact (h c).pushed (v := { w.actionFired c1 actions with rng := g })
      (hsame.trans (.of_side (by cases c <;> rfl))) hkept (setSide_sq ..)
      (by simp [SimEvent.Signals, SimEvent.isBegin])
  | @block _ _ _ c1 _ a actions _ duration bypass replace m d g d' g' x s hq hs hlt hdue ha hd hd' hx =>
    rw [(draw_none (hint c1) _).2] at hd
    obtain ⟨rfl, rfl⟩ := Prod.mk.inj hd
    rw [(draw_none (hint c1) _).1] at hd'
    obtain ⟨rfl, rfl⟩ := Prod.mk.inj hd'
    have htime : a.time = w.currentTime + s := (takeDue_some hdue).1
    have hends : EndsLater w c1 a := by
      unfold BlocksLong at hgood
      dsimp only at hgood
      rw [dueAction_of hq hs hlt hdue] at hgood
      exact hgood
    refine sync_block h hx rfl ?_ (by lia) c
    rw [hx]
    refine block_lasts (h c1) ha rfl hends ?_
    intro u hu
    have hbefore := WithTop.coe_lt_coe.mp (hlt.2.2.1.trans_le (expiryWait_le hu))
    unfold Instant.durationSince at hbefore
    lia

/-- The queued event that is picked: the beginnings stay ahead. -/
theorem sync_queued {w : Sim R G} (hwf : w.sq.WellFormed) {c1 : Bool} {k : Queue} {q : Duration}
    {e queued next : SimEvent} {c : Bool} (h : InSync c (.picking w))
    (hq : w.queueWait = .ok (↑q, k, c1)) (hother : q ≤ w.otherWait)
    (hhead : ((w.sq.side c1).heap k).peek = some e)
    (hqueued : queued = e.moved k (w.network.aggregateBaseDelay c1))
    (hnext : next = queued.forward (w.currentTime + q)) :
    InSync c (.returned next (({ w with sq := w.sq.popped k c1 }).note (.picked queued next))) := by
  have htime := picked_time hwf hq hhead hqueued hnext
  obtain ⟨hev, hcl, _⟩ := picked_same hqueued hnext
  have hmem : e ∈ ((w.sq.side c1).heap k).items := BinaryHeap.peek_mem hhead
  obtain ⟨hhome, hclient⟩ := hwf c1 k e hmem
  have hside : ((({ w with sq := w.sq.popped k c1 } : Sim R G).note (.picked queued next)).side c) =
      w.side c := by cases c <;> rfl
  have hold {y : SimEvent} (hy : y ∈ ((w.sq.popped k c1).side c).internal.items) :
      y ∈ w.internal c := SimQueue.mem_popped (j := .internal) hy
  have hinternal (hs : e.Signals) (hc : next.client = c) : e ∈ w.internal c := by
    have hk : k = .internal := by
      rw [← hhome]
      rcases hs with hs | hs
      · unfold SimEvent.isBegin at hs
        unfold SimEvent.home
        split at hs <;> simp_all
      · simp [SimEvent.home, hs]
    subst hk
    have hcc : c1 = c := by rw [← hclient, ← hcl, hc]
    exact hcc ▸ hmem
  have hbegin : next.isBegin = e.isBegin := by
    unfold SimEvent.isBegin
    rw [hev]
  refine ⟨?_, ?_, ?_, ?_⟩
  · exact (congrArg _ hside).trans h.direct
  · intro y hy hb
    obtain ⟨hnow, u, hu, hlt⟩ := h.begins y (hold hy) hb
    have hafter := internal_after hwf hq le_rfl hother (hold hy) hnow
    exact ⟨htime.trans_le hafter, u, (congrArg _ hside).trans hu, hlt⟩
  · intro y hy
    exact h.noEnd y (hold hy)
  · dsimp only
    rw [hside, hev, hbegin]
    by_cases hend : next.client = c ∧ e.event = .blockingEnd
    · exact absurd hend.2 (h.noEnd e (hinternal (.inr hend.2) hend.1))
    · rw [if_neg hend]
      by_cases hb : next.client = c ∧ e.isBegin = true
      · rw [if_pos hb]
        obtain ⟨_, u, hu, _⟩ := h.begins e (hinternal (.inl hb.2) hb.1) hb.2
        exact (congrArg Option.isSome hu).trans rfl
      · rw [if_neg hb]
        refine Settled.same h.settled (.of_side hside) fun y hy hyb => ?_
        refine (internal_popped hhead ?_).mpr hy
        rintro rfl
        exact hb ⟨by rw [hcl]; exact (hwf c .internal y hy).2, hyb⟩

/-- A blocking expires and its end is picked at once. -/
theorem sync_expired {w : Sim R G} (hwf : w.sq.WellFormed) {c1 : Bool} {x : Wait} {k : Queue}
    {c' : Bool} {b : Duration} {g : G} (h : ∀ c, InSync c (.picking w))
    (hq : w.queueWait = .ok (x, k, c')) (hb : w.expiryWait = (↑b, c1)) (hle : b ≤ x)
    (hother : b ≤ w.otherWait) {next : SimEvent}
    (hnext : next = blockingEnded c1 (w.currentTime + b) 0) (c : Bool) :
    InSync c (.returned next ((w.unblocked b c1 g).note (.picked next next))) := by
  obtain ⟨hsq, _, _⟩ := w.unblocked_rest b c1 g
  have hside := w.unblocked_side b c1 c g
  have hnote : ((w.unblocked b c1 g).note (.picked next next)).side c =
      (w.unblocked b c1 g).side c := by cases c <;> rfl
  have hint : ((w.unblocked b c1 g).note (.picked next next)).internal c = w.internal c := by
    unfold internal note
    rw [hsq]
  have htime : next.time = w.currentTime + b := by
    rw [hnext]
    simp [blockingEnded]
  have hcl : next.client = c1 := by rw [hnext]; rfl
  have hend : next.event = .blockingEnd := by rw [hnext]; rfl
  have hnotBegin : ¬ next.isBegin = true := by simp [SimEvent.isBegin, hend]
  refine ⟨?_, ?_, ?_, ?_⟩
  · change (((w.unblocked b c1 g).note (.picked next next)).side c).integration = none
    rw [hnote, hside]
    split
    · exact (h c1).direct
    · exact (h c).direct
  · intro y hy hyb
    change y ∈ ((w.unblocked b c1 g).note (.picked next next)).internal c at hy
    rw [hint] at hy
    by_cases hc : c = c1
    · subst hc
      exact absurd hyb (expired_begins hwf (h c) hq hb hle hother y hy)
    · obtain ⟨hnow, u, hu, hlt⟩ := (h c).begins y hy hyb
      have hafter := internal_after hwf hq hle hother hy hnow
      rw [if_neg hc] at hside
      exact ⟨htime.trans_le hafter, u, (congrArg _ (hnote.trans hside)).trans hu, hlt⟩
  · intro y hy
    change y ∈ ((w.unblocked b c1 g).note (.picked next next)).internal c at hy
    rw [hint] at hy
    exact (h c).noEnd y hy
  · dsimp only
    rw [hcl, hnote, hside]
    by_cases hc : c = c1
    · subst hc
      rw [if_pos ⟨rfl, hend⟩, if_pos rfl]
    · rw [if_neg fun hn => hc hn.1.symm, if_neg fun hn => hc hn.1.symm]
      rw [if_neg hc] at hside
      refine Settled.same (h c).settled (.of_side (hnote.trans hside)) fun y hy _ => ?_
      rw [hint]
      exact hy

/-- The event that was picked comes to its framework. -/
theorem sync_iterate [RngCore R] {args : SimulatorArgs G} {w w' : Sim R G} {e : SimEvent} {c : Bool}
    (h : InSync c (.returned e w)) (hit : Iterates args w e w') : InSync c (.picking w') := by
  have hears := iterates_hears hit c
  refine ⟨hears.integration.trans h.direct, ?_, ?_, ?_⟩
  · intro y hy hb
    obtain ⟨hnow, u, hu, hlt⟩ := h.begins y ((hears.signals y (.inl hb)).mp hy) hb
    exact ⟨hears.time.trans_le hnow, u, hears.blockingUntil.trans hu, hlt⟩
  · intro y hy he
    exact h.noEnd y ((hears.signals y (.inr he)).mp hy) he
  · have hs := h.settled
    dsimp only at hs
    have hactive := hears.active
    by_cases hend : e.client = c ∧ e.event = .blockingEnd
    · rw [if_pos hend] at hs
      rw [if_pos hend.1.symm, hend.2] at hactive
      refine ⟨fun ha => ?_, fun hu => ?_⟩
      · exact absurd (hactive.symm.trans ha) (by simp [TriggerEvent.activeAfter])
      · rw [hears.blockingUntil, hs] at hu
        exact absurd hu (by simp)
    rw [if_neg hend] at hs
    by_cases hb : e.client = c ∧ e.isBegin = true
    · rw [if_pos hb] at hs
      have hon : (w'.side c).framework.blockingActive = true := by
        rw [hactive, if_pos hb.1.symm]
        have hbegin := hb.2
        unfold SimEvent.isBegin at hbegin
        split at hbegin
        · rename_i he
          rw [he]
          rfl
        · exact absurd hbegin (by simp)
      refine ⟨fun _ => ?_, fun _ => .inl hon⟩
      rw [hears.blockingUntil]
      exact hs
    · rw [if_neg hb] at hs
      have hsame : (w'.side c).framework.blockingActive = (w.side c).framework.blockingActive := by
        rw [hactive]
        split
        · rename_i hc
          unfold TriggerEvent.activeAfter
          split
          · rename_i m he
            exact absurd ⟨hc.symm, by simp [SimEvent.isBegin, he]⟩ hb
          · rename_i he
            exact absurd ⟨hc.symm, he⟩ hend
          · rfl
        · rfl
      refine ⟨?_, ?_⟩
      · rw [hsame, hears.blockingUntil]
        exact hs.active
      · rw [hsame, hears.blockingUntil]
        intro hu
        rcases hs.blocked hu with ha | ⟨y, hy, hyb⟩
        · exact .inl ha
        · exact .inr ⟨y, (hears.signals y (.inl hyb)).mpr hy, hyb⟩

/-- A `BlockOutgoing` has fired at a side. -/
def firesAt (c : Bool) : SimStep → Bool
  | .blocked c' _ _ _ _ => c' == c
  | _ => false

def fired (w : Sim R G) (c : Bool) : Nat := w.log.countP (firesAt c)

/-- The event tells side `c` that a blocking has begun. -/
def BeginsAt (c : Bool) (e : SimEvent) : Prop := e.client = c ∧ e.isBegin = true

instance (c : Bool) : DecidablePred (BeginsAt c) := fun _ => inferInstanceAs (Decidable (_ ∧ _))

theorem fired_of_log {w v : Sim R G} {s : SimStep} (h : v.log = w.log ++ [s]) (c : Bool) :
    fired v c = fired w c + if firesAt c s then 1 else 0 := by
  unfold fired
  rw [h, List.countP_append, List.countP_singleton]

theorem fired_same {w w' : Sim R G} (h : w'.log = w.log) (c : Bool) : fired w' c = fired w c := by
  unfold fired
  rw [h]

/-- Every `BlockOutgoing` that fires queues its beginning. -/
theorem picks_begins {w w' : Sim R G} {p : Pick} (h : Picks w p w') (c : Bool) :
    (hand p + w'.sq.items).countP (BeginsAt c) + fired w c =
      w.sq.items.countP (BeginsAt c) + fired w' c := by
  have hpush {w' : Sim R G} {e : SimEvent} (hsq : w'.sq = w.sq) (hf : fired w' c = fired w c)
      (he : ¬ e.isBegin = true) : (0 + (w'.pushSim e).sq.items).countP (BeginsAt c) + fired w c =
        w.sq.items.countP (BeginsAt c) + fired (w'.pushSim e) c := by
    have hitems : (w'.pushSim e).sq.items = e ::ₘ w.sq.items := by
      rw [← hsq]
      exact SimQueue.items_pushSim ..
    have hfired : fired (w'.pushSim e) c = fired w c := (fired_same rfl c).trans hf
    rw [zero_add, hitems, Multiset.countP_cons_of_neg _ fun hb => he hb.2, hfired]
  cases h with
  | nothing | delayed => exact congrArg (fun s : Multiset SimEvent => s.countP (BeginsAt c) + fired w c) (zero_add _)
  | @expiredLater _ _ _ c1 g b d hq hb hle hn hd hpos =>
    obtain ⟨hsq, _, hlog⟩ := w.unblocked_rest b c1 g
    exact hpush hsq (fired_of_log hlog c) (by simp [SimEvent.isBegin, blockingEnded])
  | @expiredNow _ _ _ c1 g next b hq hb hle hn hd hnext =>
    obtain ⟨hsq, _, hlog⟩ := w.unblocked_rest b c1 g
    have hnot : ¬ BeginsAt c next := by simp [BeginsAt, SimEvent.isBegin, hnext, blockingEnded]
    have hf := (fired_of_log (w := w.unblocked b c1 g)
      (v := (w.unblocked b c1 g).note (.picked next next)) rfl c).trans (fired_of_log hlog c)
    rw [hand, Multiset.singleton_add, Multiset.countP_cons_of_neg _ hnot, hf]
    exact congrArg (fun sq => sq.items.countP (BeginsAt c) + fired w c) hsq
  | @queued k c1 e queued next q hq hle hlt hhead hqueued hnext =>
    obtain ⟨hev, hcl, _⟩ := picked_same hqueued hnext
    have hsame : BeginsAt c next ↔ BeginsAt c e := by
      unfold BeginsAt SimEvent.isBegin
      rw [hev, hcl]
    have hf := fired_of_log (w := w) (v := ({ w with sq := w.sq.popped k c1 } : Sim R G).note
      (.picked queued next)) rfl c
    rw [← SimQueue.items_popped hhead, hand, Multiset.singleton_add, hf]
    simp only [Multiset.countP_cons, hsame, note]
    rfl
  | timer hq hi hle hlt hdue =>
    exact hpush (setSide_sq ..) (fired_same (setSide_log ..) c) (by simp [SimEvent.isBegin])
  | padding hq hs hlt hdue ha hd =>
    exact hpush (setSide_sq ..) (fired_same (setSide_log ..) c) (by simp [SimEvent.isBegin])
  | @block _ _ _ c1 _ a actions _ duration bypass replace m d g d' g' x t hq hs hlt hdue ha hd hd' hx =>
    obtain ⟨hsq, _, hlog⟩ := w.blockFired_rest c1 x g'
      (.blocked c1 a.time (a.time + duration) bypass replace)
    have hitems := SimQueue.items_pushSim w.sq (blockingBegun c1 m a.time (d + d') x.blockingBypassable)
    rw [← hsq] at hitems
    have hb : BeginsAt c (blockingBegun c1 m a.time (d + d') x.blockingBypassable) ↔ c1 = c := by
      simp [BeginsAt, SimEvent.isBegin, blockingBegun]
    have hf := fired_of_log hlog c
    refine (congrArg (fun s : Multiset SimEvent => s.countP (BeginsAt c) + fired w c)
      ((zero_add _).trans hitems)).trans ?_
    rw [Multiset.countP_cons, hsq]
    refine Eq.trans ?_ (congrArg (w.sq.items.countP (BeginsAt c) + ·) hf.symm)
    simp only [hb, firesAt, beq_iff_eq]
    omega

theorem sends_begins {w w' : Sim R G} {e : SimEvent} {a : Bool} (h : Sends w e a w') (c : Bool) :
    w'.sq.items.countP (BeginsAt c) = w.sq.items.countP (BeginsAt c) ∧ fired w' c = fired w c := by
  have hpush {y : SimEvent} (hy : ¬ y.isBegin = true) (sq : SimQueue) :
      (sq.pushSim y).items.countP (BeginsAt c) = sq.items.countP (BeginsAt c) := by
    rw [SimQueue.items_pushSim, Multiset.countP_cons_of_neg _ fun hb => hy hb.2]
  have hnote (w : Sim R G) : fired (w.note (.replaced e.client)) c = fired w c :=
    fired_of_log (w := w) (s := .replaced e.client) rfl c
  cases h with
  | normal he =>
    exact ⟨hpush (by simp [SimEvent.isBegin, SimEvent.tunnelSent]) _, fired_same rfl c⟩
  | kept => exact ⟨rfl, hnote w⟩
  | @swapped _ queued k _ he hr hb hq hn =>
    have hev : queued.event = .tunnelSent := hq.2.2.1
    have hq0 : ¬ BeginsAt c queued := by simp [BeginsAt, SimEvent.isBegin, hev]
    refine ⟨?_, (hnote _).trans (fired_same rfl c)⟩
    rw [← SimQueue.items_popped (peekBlocking_ok hq.1).1, Multiset.countP_cons_of_neg _ hq0]
    exact hpush (by simp [SimEvent.isBegin, hev]) _
  | padded he =>
    exact ⟨hpush (by simp [SimEvent.isBegin, SimEvent.tunnelSent]) _, fired_same rfl c⟩
  | sent he =>
    obtain ⟨t, d, hsq⟩ := w.sendPacket_sq e
    refine ⟨?_, fired_same rfl c⟩
    rw [hsq]
    exact hpush (by simp [SimEvent.isBegin, arrival]) _
  | received he =>
    refine ⟨hpush ?_ _, fired_same rfl c⟩
    cases e.containsPadding <;> simp [SimEvent.isBegin]
  | apart => exact ⟨rfl, rfl⟩

/-- The beginnings of a side's blockings are processed or on their way. -/
def Heard (c : Bool) (cfg : Config R G) : Prop :=
  fired cfg.sim c = cfg.sim.processed (fun e => decide (BeginsAt c e)) +
    cfg.items.countP (BeginsAt c)

theorem Heard.picks {c : Bool} {w w' : Sim R G} {p : Pick} {cfg : Config R G}
    (h : Heard c (.picking w)) (hp : Picks w p w') (hsim : cfg.sim = w')
    (hitems : cfg.items = hand p + w'.sq.items) : Heard c cfg := by
  have hcount := picks_begins hp c
  have hold : fired w c = w.processed (fun e => decide (BeginsAt c e)) +
    w.sq.items.countP (BeginsAt c) := h
  unfold Heard
  rw [hitems, hsim, (picks_log hp).1]
  omega

theorem Heard.iterates [RngCore R] {args : SimulatorArgs G} {c : Bool} {w w' : Sim R G}
    {e : SimEvent} {cfg : Config R G} (h : Heard c (.returned e w)) (hit : Iterates args w e w')
    (hsim : cfg.sim = w') (hitems : cfg.items = w'.sq.items) : Heard c cfg := by
  obtain ⟨a, w1, hs, ⟨ms, hsq⟩, hlog⟩ := iterates_counts hit
  obtain ⟨hcount, hfired⟩ := sends_begins hs c
  have hold : fired w c = w.processed (fun e => decide (BeginsAt c e)) +
    (e ::ₘ w.sq.items).countP (BeginsAt c) := h
  have htimers : (↑(ms.map (timerBegun e.client e.time)) : Multiset SimEvent).countP
      (BeginsAt c) = 0 := by
    refine countP_none fun y hy hb => ?_
    obtain ⟨m, _, rfl⟩ := List.mem_map.mp (Multiset.mem_coe.mp hy)
    exact absurd hb.2 (by simp [SimEvent.isBegin, timerBegun])
  unfold Heard
  rw [hitems, hsim, hsq, Multiset.countP_add, htimers, hcount, processed_of_log hlog,
    sends_processed hs, fired_of_log hlog, hfired]
  rw [Multiset.countP_cons] at hold
  change fired w c + 0 = w.processed _ + _ + (0 + w.sq.items.countP _)
  simp only [decide_eq_true_eq]
  omega

variable [RngCore R]

/-- No event of blocking is queued at the start. -/
def Unsignalled (sq : SimQueue) : Prop :=
  ∀ c k, ∀ e ∈ ((sq.side c).heap k).items, ¬ e.Signals

/-- No integration delays anything. -/
def Direct (args : SimulatorArgs G) : Prop :=
  args.clientIntegration = none ∧ args.serverIntegration = none

theorem start_sync {args : SimulatorArgs G} {sq : SimQueue} {cfg : Config R G}
    (hargs : Direct args) (hsq : Unsignalled sq) (h : Begins args sq cfg) (c : Bool) :
    InSync c cfg ∧ Heard c cfg := by
  obtain ⟨_, _, _, _, _, w, hstart, rfl⟩ := h
  obtain ⟨_, hclient, hserver, _, hq, _, _, _, hlog⟩ := start_ok hstart
  have hside : (w.side c).integration = none ∧ (w.side c).blockingUntil = none ∧
      (w.side c).framework.blockingActive = false := by
    cases c
    · obtain ⟨hi, hu, ha, _⟩ := new_state hserver
      exact ⟨hi.trans hargs.2, hu, ha⟩
    · obtain ⟨hi, hu, ha, _⟩ := new_state hclient
      exact ⟨hi.trans hargs.1, hu, ha⟩
  obtain ⟨hi, hu, ha⟩ := hside
  have hnone (y : SimEvent) (hy : y ∈ w.internal c) : ¬ y.Signals := by
    unfold internal at hy
    rw [hq] at hy
    exact hsq c .internal y hy
  refine ⟨⟨hi, ?_, ?_, ?_, ?_⟩, ?_⟩
  · intro y hy hb
    exact absurd (.inl hb) (hnone y hy)
  · intro y hy he
    exact hnone y hy (.inr he)
  · intro hon
    exact absurd (ha.symm.trans hon) (by simp)
  · intro hon
    rw [hu] at hon
    exact absurd hon (by simp)
  · have hzero : w.sq.items.countP (BeginsAt c) = 0 := by
      refine countP_none fun e he hb => ?_
      rw [hq] at he
      rcases Multiset.mem_add.mp he with he | he
      · obtain ⟨k, hk⟩ := EventQueue.mem_items.mp he
        exact hsq true k e hk (.inl hb.2)
      · obtain ⟨k, hk⟩ := EventQueue.mem_items.mp he
        exact hsq false k e hk (.inl hb.2)
    change fired w c = w.processed _ + w.sq.items.countP _
    rw [hzero, fired, processed, hlog]
    rfl

theorem sync_step {args : SimulatorArgs G} {cfg cfg' : Config R G}
    (hwf : cfg.sim.sq.WellFormed) (h : ∀ c, InSync c cfg) (hgood : cfg.BlocksLong)
    (hnext : cfg.next args = .ok cfg') (c : Bool) : InSync c cfg' := by
  cases cfg with
  | picking w =>
    simp only [next, bind_ok] at hnext
    obtain ⟨⟨p, w'⟩, hstep, hnext⟩ := hnext
    have hpicks := pickStep_ok hstep
    cases p with
    | again => exact pure_ok.mp hnext ▸ sync_picking h hgood hstep c
    | found e =>
      cases e with
      | none =>
        obtain rfl := pure_ok.mp hnext
        cases hpicks with
        | nothing => exact ⟨(h c).direct, (h c).begins, (h c).noEnd, (h c).settled⟩
      | some e =>
        obtain rfl := pure_ok.mp hnext
        cases hpicks with
        | expiredNow hq hb hle hn hd he =>
          refine sync_expired hwf h hq hb hle.2.2 ?_ he c
          exact le_otherWait hle.1 hle.2.1 (congrArg Prod.fst hb).ge hn.le
        | queued hq hle hlt hhead hqueued he =>
          refine sync_queued hwf (h c) hq ?_ hhead hqueued he
          exact le_otherWait hle.1 hle.2 hlt.1.le hlt.2.le
  | returned e w =>
    simp only [next, bind_ok] at hnext
    obtain ⟨⟨stop, w'⟩, hit, hnext⟩ := hnext
    have hsync := sync_iterate (h c) (iterate_ok hit).1
    obtain rfl := pure_ok.mp hnext
    cases stop with
    | true => exact ⟨hsync.direct, hsync.begins, hsync.noEnd, hsync.settled⟩
    | false => exact hsync
  | done w => exact pure_ok.mp hnext ▸ h c

theorem heard_step {args : SimulatorArgs G} {cfg cfg' : Config R G} {c : Bool} (h : Heard c cfg)
    (hs : Steps args cfg cfg') : Heard c cfg' := by
  cases hs with
  | again hp => exact h.picks hp rfl (zero_add _).symm
  | finished hp => exact h.picks hp rfl (zero_add _).symm
  | found hp => exact h.picks hp rfl (by rw [hand, Multiset.singleton_add]; rfl)
  | stay hit hstay => exact h.iterates hit rfl rfl
  | leave hit hleave => exact h.iterates hit rfl rfl
  | stopped => exact h

/-- What holds in every state of a run whose blockings all end later than they begin. -/
theorem run_sync {args : SimulatorArgs G} {sq : SimQueue} (hargs : Direct args)
    (hwf : sq.WellFormed) (hsq : Unsignalled sq) {cfg : Config R G}
    (h : ReachableBy BlocksLong args sq cfg) (c : Bool) : InSync c cfg ∧ Heard c cfg := by
  have hall : ∀ c, InSync c cfg ∧ Heard c cfg := by
    refine h.invariant_of (P := fun cfg => ∀ c, InSync c cfg ∧ Heard c cfg)
      (fun cfg hb c => start_sync hargs hsq hb c) ?_
    intro cfg cfg' hr ih hstep c
    have hq := reachable_wellFormed hr hwf
    exact ⟨sync_step hq (fun c => (ih c).1) hstep.1 hstep.2 c,
      heard_step (ih c).2 (next_ok hstep.2)⟩
  exact hall c

/-- A side stops being blocked exactly when the end of its blocking is picked. -/
theorem period_ends {args : SimulatorArgs G} {cfg cfg' : Config R G}
    (hwf : cfg.sim.sq.WellFormed) (h : ∀ c, InSync c cfg) (hs : Steps args cfg cfg') (c : Bool) :
    ((cfg.sim.side c).blockingUntil.isSome = true ∧ (cfg'.sim.side c).blockingUntil = none) ↔
      ∃ e w, cfg' = .returned e w ∧ e.client = c ∧ e.event = .blockingEnd := by
  have hsame (hu : (cfg'.sim.side c).blockingUntil = (cfg.sim.side c).blockingUntil)
      (hno : ¬ ∃ e w, cfg' = .returned e w ∧ e.client = c ∧ e.event = .blockingEnd) :
      ((cfg.sim.side c).blockingUntil.isSome = true ∧ (cfg'.sim.side c).blockingUntil = none) ↔
        ∃ e w, cfg' = .returned e w ∧ e.client = c ∧ e.event = .blockingEnd := by
    refine iff_of_false (fun hp => ?_) hno
    rw [hu] at hp
    rw [hp.2] at hp
    exact absurd hp.1 (by simp)
  cases hs with
  | @again w w' hp =>
    generalize hpick : Pick.again = p at hp
    cases hp with
    | nothing | queued | expiredNow => exact absurd hpick (by simp)
    | delayed hq hn hne => exact hsame (by cases c <;> rfl) (by simp)
    | expiredLater hq hb hle hn hd hpos =>
      have hint (c : Bool) : (w.side c).integration = none := (h c).direct
      rw [(draw_none (hint _) _).1] at hd
      exact absurd (Prod.mk.inj hd).1 hpos.ne
    | timer hq hi hle hlt hdue =>
      exact hsame ((congrArg _ (pushSim_side ..)).trans (timerFired_blocking w _ _ c).blockingUntil)
        (by simp)
    | @padding _ _ _ c1 _ _ actions _ _ _ _ _ _ _ hq hs hlt hdue ha hd =>
      refine hsame ((congrArg _ (pushSim_side ..)).trans ?_) (by simp)
      refine Eq.trans ?_ (actionFired_blocking w c1 actions c).blockingUntil
      cases c <;> rfl
    | @block _ _ _ c1 _ a actions _ duration bypass replace m d g d' g' x t hq hs hlt hdue ha hd hd' hx =>
      refine iff_of_false ?_ (by simp)
      rintro ⟨hon, hoff⟩
      have hu : (if c = c1 then x else w.side c).blockingUntil = none := by
        rw [← w.blockFired_side c1 c x g' (.blocked c1 a.time (a.time + duration) bypass replace)]
        exact (congrArg _ (pushSim_side ..)).symm.trans hoff
      have hkept : (if c = c1 then x else w.side c).blockingUntil.isSome = true := by
        split
        · rename_i hc
          rw [hx]
          exact block_isSome (hc ▸ hon)
        · exact hon
      rw [hu] at hkept
      exact absurd hkept (by simp)
  | finished hp =>
    cases hp with
    | nothing => exact hsame rfl (by simp)
  | @found w e w' hp =>
    cases hp with
    | @expiredNow _ _ _ c1 g _ b hq hb hle hn hd he =>
      obtain ⟨u, hu, _⟩ := expiryWait_some hb
      have hside := w.unblocked_side b c1 c g
      have hnote : (((w.unblocked b c1 g).note (.picked e e)).side c).blockingUntil =
          ((w.unblocked b c1 g).side c).blockingUntil := by cases c <;> rfl
      by_cases hc : c = c1
      · subst hc
        rw [if_pos rfl] at hside
        refine iff_of_true ⟨?_, hnote.trans (by rw [hside])⟩ ⟨e, _, rfl, by rw [he]; rfl, by rw [he]; rfl⟩
        exact (congrArg Option.isSome hu).trans rfl
      · rw [if_neg hc] at hside
        apply hsame (hnote.trans (by rw [hside]; rfl))
        rintro ⟨_, _, heq, hcl, _⟩
        obtain ⟨rfl, _⟩ := returned.inj heq
        rw [he] at hcl
        exact hc hcl.symm
    | @queued k c1 y queued _ q hq hle hlt hhead hqueued he =>
      apply hsame (by cases c <;> rfl)
      rintro ⟨_, _, heq, hcl, hend⟩
      obtain ⟨rfl, _⟩ := returned.inj heq
      obtain ⟨hev, hcl', _⟩ := picked_same hqueued he
      have hmem : y ∈ ((w.sq.side c1).heap k).items := BinaryHeap.peek_mem hhead
      obtain ⟨hhome, hclient⟩ := hwf c1 k y hmem
      have hyend : y.event = .blockingEnd := hev.symm.trans hend
      have hk : k = .internal := by rw [← hhome]; simp [SimEvent.home, hyend]
      subst hk
      exact (h c1).noEnd y hmem hyend
  | stay hit hstay => exact hsame (iterates_hears hit c).blockingUntil (by simp)
  | leave hit hleave => exact hsame (iterates_hears hit c).blockingUntil (by simp)
  | stopped => exact hsame rfl (by simp)

/-- The simulator's and the framework's idea of blocking stay in sync in every run whose
blockings all end later than they begin. -/
theorem blocking_in_sync {args : SimulatorArgs G} {sq : SimQueue} (hargs : Direct args)
    (hwf : sq.WellFormed) (hsq : Unsignalled sq) {cfg : Config R G}
    (h : ReachableBy BlocksLong args sq cfg) (c : Bool) :
    (∀ e w, cfg = .returned e w → e.client = c → e.event = .blockingEnd →
      fired w c = w.processed fun e => decide (BeginsAt c e)) ∧
    (∀ cfg', cfg.next args = .ok cfg' →
      ((cfg.sim.side c).blockingUntil.isSome = true ∧ (cfg'.sim.side c).blockingUntil = none ↔
        ∃ e w, cfg' = .returned e w ∧ e.client = c ∧ e.event = .blockingEnd)) ∧
    ∀ w, cfg = .picking w ∨ cfg = .done w → (∀ y ∈ w.internal c, ¬ y.isBegin = true) →
      ((w.side c).framework.blockingActive = true ↔ (w.side c).blockingUntil.isSome = true) := by
  have hall := run_sync hargs hwf hsq h
  refine ⟨?_, ?_, ?_⟩
  · rintro e w rfl hcl hend
    obtain ⟨hsync, hheard⟩ := hall c
    have hoff := hsync.settled
    dsimp only at hoff
    rw [if_pos ⟨hcl, hend⟩] at hoff
    have hnone : (e ::ₘ w.sq.items).countP (BeginsAt c) = 0 := by
      refine countP_none fun y hy hb => ?_
      rcases Multiset.mem_cons.mp hy with rfl | hy
      · exact absurd hb.2 (by simp [SimEvent.isBegin, hend])
      · have hq : w.sq.WellFormed := reachable_wellFormed h hwf
        have hinternal : y ∈ w.internal c := by
          have hhome : y.home = .internal := by
            have hbegin := hb.2
            unfold SimEvent.isBegin at hbegin
            unfold SimEvent.home
            split at hbegin <;> simp_all
          have hin (c' : Bool) {k : Queue} (hk : y ∈ ((w.sq.side c').heap k).items) :
              y ∈ w.internal c := by
            obtain ⟨h1, h2⟩ := hq c' k y hk
            obtain rfl : k = .internal := h1.symm.trans hhome
            obtain rfl : c' = c := h2.symm.trans hb.1
            exact hk
          rcases Multiset.mem_add.mp hy with hy | hy
          · obtain ⟨k, hk⟩ := EventQueue.mem_items.mp hy
            exact hin true hk
          · obtain ⟨k, hk⟩ := EventQueue.mem_items.mp hy
            exact hin false hk
        obtain ⟨_, u, hu, _⟩ := hsync.begins y hinternal hb.2
        exact absurd (hoff.symm.trans hu) (by simp)
    have hcount : fired w c = w.processed (fun e => decide (BeginsAt c e)) +
      (e ::ₘ w.sq.items).countP (BeginsAt c) := hheard
    rw [hcount, hnone]
    rfl
  · intro cfg' hnext
    exact period_ends (reachable_wellFormed h hwf) (fun c => (hall c).1) (next_ok hnext) c
  · intro w hw hno
    obtain ⟨hactive, hblocked⟩ : Settled c w := by
      rcases hw with rfl | rfl
      · exact (hall c).1.settled
      · exact (hall c).1.settled
    refine ⟨hactive, fun hu => ?_⟩
    rcases hblocked hu with ha | ⟨y, hy, hb⟩
    · exact ha
    · exact absurd hb (hno y hy)

/-- A machine that blocks for so many microseconds when a packet is sent. -/
def blocker (duration : Rat) : Machine :=
  let constant (x : Rat) : Dist := ⟨.uniform (Flt.ofRat x) (Flt.ofRat x), ⟨0⟩, ⟨0⟩⟩
  .free [
    .new fun
      | .normalSent => certain 1
      | _ => [],
    { State.new (fun _ => []) with
      action := some (.blockOutgoing false false (constant 0) (constant duration) none) }]

/-- The queue of a trace has no event of blocking. -/
theorem baseTrace_unsignalled {sq : SimQueue} (h : sq.BaseTrace) : Unsignalled sq := by
  intro c k e he hs
  have hnormal := h.normal c k e he
  rcases hs with hs | hs
  · simp [SimEvent.isBegin, hnormal] at hs
  · simp [hnormal] at hs

/-- Where the client blocks for `duration` after its only packet, with the beginning
processed: whether no event is left inside the client, whether its framework takes it to be
blocked, until when it is, and whether all blockings ended later than they began. -/
def blockedAt (duration : Rat) : Option (Bool × Bool × Option Instant × Bool) := do
  let args : SimulatorArgs Unit := .new ⟨10, none⟩ 0 true
  let w ← (Sim.start [blocker duration] [] oneSent args () () ()).toOption
  match ← ((Config.picking w).after args 7).toOption with
  | .picking w' =>
    return (w'.sq.client.internal.len == 0, w'.client.framework.blockingActive,
      w'.client.blockingUntil, stays BlocksLong args 7 (.picking w))
  | _ => none

theorem blockedAt_some {duration : Rat} {idle active good : Bool} {u : Option Instant}
    (h : blockedAt duration = some (idle, active, u, good)) : ∃ w w' : Sim Unit Unit,
    Sim.start [blocker duration] [] oneSent (.new ⟨10, none⟩ 0 true) () () () = .ok w ∧
    (Config.picking w).after (.new ⟨10, none⟩ 0 true) 7 = .ok (.picking w') ∧
    (idle = true → w'.internal true = 0) ∧ (w'.side true).framework.blockingActive = active ∧
    (w'.side true).blockingUntil = u ∧
    stays BlocksLong (.new ⟨10, none⟩ 0 true) 7 (.picking w) = good := by
  unfold blockedAt at h
  simp only [Option.bind_eq_bind, Option.bind_eq_some_iff, toOption_eq_some] at h
  obtain ⟨w, hstart, cfg, hafter, hcfg⟩ := h
  cases cfg with
  | picking w' =>
    obtain ⟨hidle, hactive, hu, hgood⟩ := by simpa using hcfg
    refine ⟨w, w', hstart, hafter, ?_, hactive, hu, hgood⟩
    intro h
    apply Multiset.card_eq_zero.mp
    exact (BinaryHeap.card_items _).trans (beq_iff_eq.mp (hidle.trans h))
  | returned e w' => exact absurd hcfg (by simp)
  | done w' => exact absurd hcfg (by simp)

/-- A blocking of no time leaves the framework blocked for good. -/
theorem empty_blocking_out_of_sync : ∃ w : Sim Unit Unit,
    Reachable (.new ⟨10, none⟩ 0 true) oneSent (.picking w) ∧
    (∀ y ∈ w.internal true, ¬ y.isBegin = true) ∧
    ¬ ((w.side true).framework.blockingActive = true ↔
      (w.side true).blockingUntil.isSome = true) := by
  have hrun : blockedAt 0 = some (true, true, none, false) := by decide +kernel
  obtain ⟨w, w', hstart, hafter, hidle, hactive, hu, _⟩ := blockedAt_some hrun
  have hreach := after_reachable (.start ⟨[blocker 0], [], (), (), (), w, hstart, rfl⟩) hafter
  refine ⟨w', hreach, ?_, ?_⟩
  · intro y hy
    rw [hidle rfl] at hy
    exact absurd hy (Multiset.notMem_zero y)
  · rw [hactive, hu]
    simp

/-- A blocking of five microseconds, once it has begun. -/
theorem short_blocking_in_sync : ∃ w : Sim Unit Unit,
    ReachableBy BlocksLong (.new ⟨10, none⟩ 0 true) oneSent (.picking w) ∧
    (w.side true).framework.blockingActive = true ∧
    ((w.side true).framework.blockingActive = true ↔
      (w.side true).blockingUntil.isSome = true) := by
  have hrun : blockedAt 5 = some (true, true, some 5000, true) := by decide +kernel
  obtain ⟨w, w', hstart, hafter, hidle, hactive, _, hgood⟩ := blockedAt_some hrun
  have hreach : ReachableBy BlocksLong (.new ⟨10, none⟩ 0 true) oneSent (.picking w') :=
    stays_reachable (.start ⟨[blocker 5], [], (), (), (), w, hstart, rfl⟩) hgood hafter
  have hbase : oneSent.BaseTrace := .push .new ..
  have hnone : ∀ y ∈ w'.internal true, ¬ y.isBegin = true := by
    intro y hy
    rw [hidle rfl] at hy
    exact absurd hy (Multiset.notMem_zero y)
  exact ⟨w', hreach, hactive, (blocking_in_sync ⟨rfl, rfl⟩ hbase.built.wellFormed
    (baseTrace_unsignalled hbase) hreach true).2.2 w' (.inl rfl) hnone⟩

end Maybenot.Config

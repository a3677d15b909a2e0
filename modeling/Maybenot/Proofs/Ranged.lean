import Maybenot.Proofs.Blockage
import Maybenot.Proofs.Plain
import Maybenot.Proofs.Sessions
import Maybenot.Sim.Ranged

namespace Maybenot
open Lib

variable {R G : Type} {range : InstantRange}

/-- The amounts that a platform can represent. -/
def Fit (range : InstantRange) (amounts : List Amount) : Prop := ∀ a ∈ amounts, a.Fits range

theorem Fit.append {as bs : List Amount} (ha : Fit range as) (hb : Fit range bs) :
    Fit range (as ++ bs) := by
  intro a h
  rcases List.mem_append.mp h with h | h
  · exact ha a h
  · exact hb a h

theorem Fit.cons {a : Amount} {as : List Amount} (ha : a.Fits range) (h : Fit range as) :
    Fit range (a :: as) := List.forall_mem_cons.mpr ⟨ha, h⟩

theorem Fit.nil : Fit range [] := List.forall_mem_nil _

/-- What fits within some of the instants of a platform fits the platform. -/
theorem Fit.widen {platform : InstantRange} {as : List Amount} (h : Fit range as)
    (hrange : platform.Holds range) : Fit platform as := by
  intro a ha
  have hfits := h a ha
  cases a with
  | instant t => exact ⟨hrange.first.trans hfits.1, hfits.2.trans hrange.last⟩
  | duration d => exact hfits
  | wait x => exact hfits

/-- A wait from one instant to another that is not as far away as `Duration::MAX`. -/
theorem wait_fits (hshort : Instant.durationSince range.last range.first < Duration.max)
    {t now : Instant} (hfirst : range.first ≤ now) (hlast : t ≤ range.last) :
    Amount.Fits range (.wait (Instant.durationSince t now : Duration)) := by
  intro h
  have hmax : Instant.durationSince t now = Duration.max := WithTop.coe_inj.mp h
  have hle : Instant.durationSince t now ≤ Instant.durationSince range.last range.first :=
    Int.toNat_le_toNat (by lia)
  exact absurd hmax (hle.trans_lt hshort).ne

/-- Nothing is a wait that fits. -/
theorem top_fits : Amount.Fits range (.wait ⊤) := WithTop.top_ne_coe

namespace Ranged

theorem checked_eq {α : Type} {amounts : List Amount} (h : Fit range amounts) (x : Exec α) :
    checked range amounts x = x := if_pos h

theorem checked_overflow {α : Type} {amounts : List Amount} (h : ¬ Fit range amounts)
    (x : Exec α) : checked range amounts x = .error .overflow := if_neg h

variable [RngCore R] {args : SimulatorArgs G}

/-- A run whose amounts all fit is not changed by the checks. -/
theorem run_eq (good : Config R G → Prop)
    (hfit : ∀ cfg, good cfg → Fit range (cfg.amounts args))
    (hnext : ∀ cfg cfg', good cfg → cfg.next args = .ok cfg' → good cfg') {fuel : Nat}
    {cfg : Config R G} (h : good cfg) : run range args fuel cfg = cfg.run args fuel := by
  induction fuel generalizing cfg with
  | zero => cases cfg <;> rfl
  | succ fuel ih =>
    have hstep : (next range args cfg >>= run range args fuel) =
        (cfg.next args >>= fun c => c.run args fuel) := by
      unfold next
      rw [checked_eq (hfit cfg h)]
      cases hcfg : cfg.next args with
      | error fault => rfl
      | ok cfg' => exact ih (hnext cfg cfg' h hcfg)
    cases cfg with
    | picking w => exact hstep
    | returned e w => exact hstep
    | done w => rfl

/-- What comes through the checks is what comes without them. -/
theorem run_ok {fuel : Nat} {cfg : Config R G} {w : Sim R G}
    (h : run range args fuel cfg = .ok w) : cfg.run args fuel = .ok w := by
  induction fuel generalizing cfg with
  | zero => cases cfg <;> exact h
  | succ fuel ih =>
    have hstep (h : (next range args cfg >>= run range args fuel) = .ok w) :
        (cfg.next args >>= fun c => c.run args fuel) = .ok w := by
      obtain ⟨cfg', hnext, hrun⟩ := bind_ok.mp h
      unfold next checked at hnext
      split at hnext
      · exact (bind_eq hnext).trans (ih hrun)
      · exact absurd hnext (by simp)
    cases cfg with
    | picking w => exact hstep h
    | returned e w => exact hstep h
    | done w => exact h

/-- A run that comes to its end does so with the checks as well, or they stop it where something
does not fit, whatever fuel is left. -/
theorem run_or (range : InstantRange) (good : Config R G → Prop)
    (hgood : ∀ cfg cfg', good cfg → cfg.next args = .ok cfg' → good cfg') {n : Nat}
    {cfg : Config R G} {w : Sim R G} (h : cfg.run args n = .ok w) (hcfg : good cfg) :
    (∀ fuel ≥ n, run range args fuel cfg = .ok w) ∨
      (∀ fuel ≥ n, run range args fuel cfg = .error .overflow) ∧
        ∃ k, good k ∧ ¬ Fit range (k.amounts args) := by
  have hdone {v : Sim R G} {n : Nat} (h : (Config.done v).run args n = .ok w) (fuel : Nat) :
      run range args fuel (Config.done v) = .ok w := by
    have hv : v = w := by
      cases n <;> exact pure_ok.mp h
    subst hv
    cases fuel <;> rfl
  induction n generalizing cfg with
  | zero =>
    cases cfg with
    | picking v => exact absurd h (by simp [Config.run])
    | returned e v => exact absurd h (by simp [Config.run])
    | done v => exact .inl fun fuel _ => hdone h fuel
  | succ n ih =>
    have hstep (h : (cfg.next args >>= fun c => c.run args n) = .ok w) :
        (∀ fuel ≥ n, (next range args cfg >>= run range args fuel) = .ok w) ∨
          (∀ fuel ≥ n, (next range args cfg >>= run range args fuel) = .error .overflow) ∧
            ∃ k, good k ∧ ¬ Fit range (k.amounts args) := by
      obtain ⟨cfg', hnext, hrun⟩ := bind_ok.mp h
      unfold next
      by_cases hfit : Fit range (cfg.amounts args)
      · rw [checked_eq hfit, hnext]
        exact ih hrun (hgood cfg cfg' hcfg hnext)
      · rw [checked_overflow hfit]
        exact .inr ⟨fun fuel _ => rfl, cfg, hcfg, hfit⟩
    have hmore {p : Nat → Prop} (h : ∀ fuel ≥ n, p (fuel + 1)) : ∀ fuel ≥ n + 1, p fuel := by
      intro fuel hfuel
      obtain ⟨fuel, rfl⟩ := Nat.exists_eq_add_of_le' (Nat.lt_of_lt_of_le (Nat.succ_pos n) hfuel)
      exact h fuel (Nat.le_of_succ_le_succ hfuel)
    cases cfg with
    | picking v => exact (hstep h).imp hmore fun h => ⟨hmore h.1, h.2⟩
    | returned e v => exact (hstep h).imp hmore fun h => ⟨hmore h.1, h.2⟩
    | done v => exact .inl fun fuel _ => hdone h fuel

/-- Fuel that is left over makes no difference. -/
theorem run_mono {n m : Nat} {cfg : Config R G} {w : Sim R G}
    (h : run range args n cfg = .ok w) (hle : n ≤ m) : run range args m cfg = .ok w := by
  rcases run_or range (fun _ => True) (fun _ _ _ _ => trivial) (run_ok h) trivial with
    hok | ⟨hover, -⟩
  · exact hok m hle
  · exact absurd (h.symm.trans (hover n le_rfl)) (by simp)

end Ranged

namespace Config
open Sim Framework

variable [RngCore R] {args : SimulatorArgs G}

/-- The framework of a side keeps the right books on blocking, in every place of a run. -/
theorem reachable_booked {sq : SimQueue} {cfg : Config R G} (h : Reachable args sq cfg)
    (c : Bool) : ∃ s : Watched R Instant Duration, s.framework = (cfg.sim.side c).framework ∧
      Booked s ∧ s.last ≤ cfg.sim.currentTime := by
  refine h.invariant (P := fun cfg => ∃ s : Watched R Instant Duration,
    s.framework = (cfg.sim.side c).framework ∧ Booked s ∧ s.last ≤ cfg.sim.currentTime) ?_ ?_
  · rintro cfg ⟨m, m', r, r', g, w, hstart, rfl⟩
    obtain ⟨_, hclient, hserver, _⟩ := start_ok hstart
    refine ⟨⟨(w.side c).framework, w.currentTime, w.currentTime, ⟨0, none⟩⟩, rfl, ?_, le_rfl⟩
    cases c with
    | true => exact .initial (new_framework hclient) rfl rfl
    | false => exact .initial (new_framework hserver) rfl rfl
  · rintro cfg cfg' ⟨s, hs, hbooked, hlast⟩ ⟨-, hnext⟩
    have hpicks {w w' : Sim R G} {p : Pick} (hp : Picks w p w')
        (hs : s.framework = (w.side c).framework) (hlast : s.last ≤ w.currentTime) :
        ∃ s : Watched R Instant Duration, s.framework = (w'.side c).framework ∧ Booked s ∧
          s.last ≤ w'.currentTime :=
      ⟨s, hs.trans (picks_fixed hp c).2.symm, hbooked, hlast.trans_eq hp.kept.1.symm⟩
    have hiterates {w w' : Sim R G} {e : SimEvent} (hit : Iterates args w e w')
        (hs : s.framework = (w.side c).framework) (hlast : s.last ≤ w.currentTime) :
        ∃ s : Watched R Instant Duration, s.framework = (w'.side c).framework ∧ Booked s ∧
          s.last ≤ w'.currentTime := by
      have hnow : s.last ≤ e.time := hlast.trans hit.forward
      have htime : w'.currentTime = e.time := (iterates_hears hit true).time
      have hframework := iterates_framework hit c
      split at hframework
      · obtain ⟨actions, hcall⟩ := hframework
        have hcalled : s.Call actions ⟨(w'.side c).framework, s.start, e.time,
            s.blockage.after e.event e.time⟩ :=
          ⟨e.event, Int.cast_le.mpr hnow, hs ▸ hcall, rfl, rfl⟩
        exact ⟨_, rfl, hbooked.call hcalled, htime.ge⟩
      · exact ⟨s, hs.trans hframework.symm, hbooked, htime.symm ▸ hnow⟩
    cases next_ok hnext with
    | again hp => exact hpicks hp hs hlast
    | finished hp => exact hpicks hp hs hlast
    | found hp => exact hpicks hp hs hlast
    | stay hit => exact hiterates hit hs hlast
    | leave hit => exact hiterates hit hs hlast
    | stopped => exact ⟨s, hs, hbooked, hlast⟩

/-- The time blocked that a framework adds up, for itself and for its machines, is never more than
the time since its start. -/
theorem blocked_elapsed {sq : SimQueue} {cfg : Config R G} (h : Reachable args sq cfg) (c : Bool)
    {now : Instant} (hnow : cfg.sim.currentTime ≤ now) :
    let f := (cfg.sim.side c).framework
    f.blockingDuration +
        (if f.blockingActive then Instant.durationSince now f.blockingStarted else 0) ≤
      Instant.durationSince now f.frameworkStart ∧
    ∀ rt ∈ f.runtime, rt.blockingDuration = f.blockingDuration := by
  obtain ⟨s, hs, hbooked, hlast⟩ := reachable_booked h c
  dsimp only
  rw [← hs]
  constructor
  · have hpast : Time.Clocked.clock s.last ≤ Time.Clocked.clock now :=
      Int.cast_le.mpr (hlast.trans hnow)
    have hle := Blockage.total_le (b := s.blockage) hpast
    have hmost := hbooked.atMost
    rw [← hbooked.blockedBy hpast] at hle
    have hcast : ((s.framework.blockingDuration + (if s.framework.blockingActive then
        Instant.durationSince now s.framework.blockingStarted else 0) : Nat) : ℚ) =
        s.framework.blockedBy now := by
      unfold blockedBy
      split
      · exact Nat.cast_add _ _
      · exact (Nat.cast_add _ _).trans (congrArg _ Nat.cast_zero)
    have hsum : ((s.framework.blockingDuration + (if s.framework.blockingActive then
        Instant.durationSince now s.framework.blockingStarted else 0) : Nat) : Int) ≤
        now - s.start := by
      have hq : s.framework.blockedBy now ≤ (now : ℚ) - s.start := by
        have hclocks : Time.Clocked.clock now - Time.Clocked.clock s.start =
          (now : ℚ) - s.start := rfl
        linarith
      rw [← hcast] at hq
      exact_mod_cast hq
    rw [hbooked.start]
    exact Int.ofNat_le.mp (hsum.trans (Int.self_le_toNat _))
  · intro rt hrt
    obtain ⟨mi, hmi⟩ := List.getElem?_of_mem hrt
    obtain ⟨m, hm⟩ := exists_getElem? (hbooked.runtime ▸ (List.getElem?_eq_some_iff.mp hmi).1)
    exact (hbooked.machines mi m rt hm hmi).1

/-- Hence the sums that the framework makes of it fit where the times since then do. -/
theorem blocked_fits {sq : SimQueue} {cfg : Config R G} (h : Reachable args sq cfg) (c : Bool)
    {now : Instant} (hnow : cfg.sim.currentTime ≤ now) (hlast : now ≤ range.last)
    (hfirst : range.first ≤ (cfg.sim.side c).framework.frameworkStart) :
    let f := (cfg.sim.side c).framework
    let running := if f.blockingActive then Instant.durationSince now f.blockingStarted else 0
    f.blockingDuration + running ≤ Instant.durationSince now f.frameworkStart ∧
      Amount.Fits range (.duration (f.blockingDuration + running)) ∧
      ∀ rt ∈ f.runtime, Amount.Fits range (.duration (rt.blockingDuration + running)) := by
  obtain ⟨helapsed, hsame⟩ := blocked_elapsed h c hnow
  have hspan : Instant.durationSince now (cfg.sim.side c).framework.frameworkStart ≤
      Instant.durationSince range.last range.first := Int.toNat_le_toNat (by lia)
  have hfits := helapsed.trans (hspan.trans range.close)
  refine ⟨helapsed, hfits, fun rt hrt => ?_⟩
  rw [hsame rt hrt]
  exact hfits

/-- A client that has been blocking for three microseconds. -/
theorem blocking_fits : ∃ cfg : Config Unit Unit, Reachable continuing oneSent cfg ∧
    (cfg.sim.side true).framework.blockingActive = true ∧
    (cfg.sim.side true).framework.blockingDuration + 3000 ≤ 3000 := by
  have hrun : (ranFor [blocker 5] [] oneSent continuing 8).map (fun r =>
      (r.2.sim.currentTime, (r.2.sim.side true).framework.blockingActive,
        (r.2.sim.side true).framework.frameworkStart,
        (r.2.sim.side true).framework.blockingStarted)) = some (0, true, 0, 0) := by
    decide +kernel
  simp only [Option.map_eq_some_iff, Prod.mk.injEq] at hrun
  obtain ⟨⟨w, cfg⟩, hran, hnow, hactive, hbegun, hstarted⟩ := hrun
  obtain ⟨hbegins, hfrom, _⟩ := ranFor_some hran
  have hreach := hfrom.reachable hbegins
  have hlater : cfg.sim.currentTime ≤ (3000 : Instant) := hnow.trans_le (by decide)
  have hlast : (3000 : Instant) ≤ InstantRange.unix.last := by decide
  have hfirst : InstantRange.unix.first ≤ (cfg.sim.side true).framework.frameworkStart :=
    hbegun ▸ (by decide : InstantRange.unix.first ≤ 0)
  obtain ⟨helapsed, -, -⟩ := blocked_fits hreach true hlater hlast hfirst
  rw [hactive, hbegun, hstarted, if_pos rfl] at helapsed
  exact ⟨cfg, hreach, hactive, helapsed⟩

end Config

/-- When a packet is at its receiver: one that is still to be sent needs the delay of the
network. -/
def SimEvent.due (delay : Duration) (e : SimEvent) : Instant :=
  if e.event = .normalSent ∨ e.event = .tunnelSent then e.time + delay else e.time

theorem SimEvent.le_due (delay : Duration) (e : SimEvent) : e.time ≤ e.due delay := by
  unfold due
  split <;> lia

namespace Config
open Sim

/-- The packets of a run without machines are all received within the range. -/
structure InTime (range : InstantRange) (delay : Duration) (cfg : Config R G) : Prop where
  begun : range.first ≤ cfg.now
  received : ∀ e ∈ cfg.items, e.due delay ≤ range.last

theorem InTime.fits {delay : Duration} {cfg : Config R G} (h : InTime range delay cfg)
    (hlater : ∀ e ∈ cfg.items, cfg.now ≤ e.time) {e : SimEvent} (he : e ∈ cfg.items) :
    Amount.Fits range (.instant e.time) :=
  ⟨h.begun.trans (hlater e he), (e.le_due delay).trans (h.received e he)⟩

variable {limit : Nat} {packets : Bool → Multiset Instant} {delay : Duration}

/-- A round of picking in a run without machines computes no more than the times of packets. -/
theorem Plain.pickAmounts_fit {w : Sim R G} {l : List Crossing}
    (hshort : Instant.durationSince range.last range.first < Duration.max) (hwf : w.sq.WellFormed)
    (h : Plain limit packets (.picking w) l) (hin : InTime range delay (.picking w)) :
    Fit range w.pickAmounts := by
  have hlater : ∀ y ∈ w.sq.items, w.currentTime ≤ y.time := fun y hy => (h.events y hy).2
  have hquiet : ∀ c, Quiet (w.side c) := h.quiet
  have hzero : ∀ c, w.network.aggregateBaseDelay c = 0 := h.network.base
  obtain ⟨haction, htimer, hexpiry, hdelay⟩ := quiet_waits hquiet h.network.delays
  have hpeek (c : Bool) (d : Duration) (hd : d = 0) : Fit range (w.sq.baseAmounts c d) := by
    intro a ha
    obtain ⟨e, he, rfl⟩ := List.mem_map.mp ha
    have hmem : e ∈ w.sq.items :=
      SimQueue.mem_items.mpr ⟨c, .base, BinaryHeap.peek_mem (Option.mem_toList.mp he)⟩
    have hfits := hin.fits hlater hmem
    subst hd
    simpa using hfits
  have hpeeked : Fit range (w.sq.baseAmounts true w.network.clientAggregateBaseDelay ++
      w.sq.baseAmounts false w.network.serverAggregateBaseDelay) :=
    (hpeek true _ (hzero true)).append (hpeek false _ (hzero false))
  unfold pickAmounts
  generalize w.expiryWait = expiry at hexpiry
  obtain ⟨b, side⟩ := expiry
  obtain rfl : b = ⊤ := hexpiry
  rw [haction, htimer, hdelay]
  cases hq : w.queueWait with
  | error fault => exact hpeeked
  | ok found =>
    obtain ⟨q, k, c⟩ := found
    have hwaits (hq : Amount.Fits range (.wait q)) :
        Fit range [.wait ⊤, .wait ⊤, .wait ⊤, .wait ⊤, .wait q] :=
      .cons top_fits (.cons top_fits (.cons top_fits (.cons top_fits (.cons hq .nil))))
    cases q using WithTop.recTopCoe with
    | top => exact (hpeeked.append (hwaits top_fits)).append Fit.nil
    | coe q =>
      have hspec := View.peekQueue_spec (v := w.view) hwf w.otherWait
      rw [← queueWait_eq, hq] at hspec
      obtain ⟨e, hmem, hwait⟩ : ∃ e ∈ w.sq.items,
          q = Instant.durationSince e.time w.currentTime := by
        rcases hspec with ⟨htop, _⟩ | ⟨c', k', e, hfound, hhead, _⟩
        · exact absurd (congrArg Prod.fst (Except.ok.inj htop)) (by simp)
        · refine ⟨e, SimQueue.mem_items.mpr ⟨c', k', BinaryHeap.peek_mem hhead⟩, ?_⟩
          have hcoe := congrArg Prod.fst (Except.ok.inj hfound)
          rw [quiet_wait hquiet hzero] at hcoe
          exact WithTop.coe_inj.mp hcoe
      have hnow := hlater e hmem
      have htime : w.currentTime + (q : Int) = e.time := by
        rw [hwait]
        unfold Instant.durationSince
        lia
      have hfits : Amount.Fits range (.instant (w.currentTime + (q : Int))) :=
        htime ▸ hin.fits hlater hmem
      have hwaited : Amount.Fits range (.wait (q : Duration)) :=
        hwait ▸ wait_fits hshort hin.begun ((e.le_due delay).trans (hin.received e hmem))
      refine (hpeeked.append (hwaits hwaited)).append ?_
      rw [if_neg fun h => WithTop.coe_ne_top h.2.2.2.2,
        if_neg fun h => WithTop.not_top_le_coe q h.2.2.2,
        if_neg fun h => WithTop.not_top_le_coe q h.2.2, if_pos ⟨le_top, le_top⟩]
      exact .cons hfits .nil

/-- A packet sent in a run without machines comes to the other side within the range. -/
theorem Plain.sendAmounts_fit {w : Sim R G} {e : SimEvent} (hp : Packet e)
    (hquiet : ∀ c, Quiet (w.side c)) (hfree : (w.network.sample w.currentTime e.client).1.2 = none)
    (hdelay : w.network.network.delay = delay) (hfits : Amount.Fits range (.instant e.time))
    (hdue : e.time + delay ≤ range.last) : Fit range (w.sendAmounts e) := by
  have hreporting : ((w.side !e.client).reportingDelay w.rng).1 = 0 :=
    congrArg Prod.fst ((hquiet !e.client).draws (·.reportingDelay) w.rng)
  have hsample : (w.network.sample w.currentTime e.client).1.1 = delay := by
    rw [sample_delay, hfree, hdelay]
    rfl
  have hsampled : w.network.sampleAmounts w.currentTime e.client = [] := by
    unfold NetworkBottleneck.sampleAmounts
    generalize w.network.sample w.currentTime e.client = s at hfree
    obtain ⟨⟨d, x⟩, n⟩ := s
    obtain rfl : x = none := hfree
    rfl
  have harrival : range.first ≤ e.time + delay ∧ e.time + delay ≤ range.last :=
    ⟨hfits.1.trans (by lia), hdue⟩
  unfold sendAmounts
  generalize w.network.sample w.currentTime e.client = s at hfree hsample
  generalize (w.side !e.client).reportingDelay w.rng = r at hreporting
  obtain ⟨⟨d, x⟩, n⟩ := s
  obtain ⟨reporting, g⟩ := r
  obtain rfl : x = none := hfree
  obtain rfl : d = delay := hsample
  obtain rfl : reporting = 0 := hreporting
  rw [hsampled, hp.normal, hp.prompt]
  simpa [Fit, Amount.Fits] using ⟨hfits, harrival⟩

/-- What a packet leads to is received when it is. -/
theorem follow_due {w : Sim R G} {e : SimEvent} (hp : Packet e) (hquiet : ∀ c, Quiet (w.side c))
    (hnow : w.currentTime = e.time) (hdelay : w.network.network.delay = delay)
    (hfree : e.event = .tunnelSent → (w.network.sample e.time e.client).1.2 = none) :
    ∀ y ∈ w.follow e, y.due delay ≤ e.due delay := by
  have hreporting : w.reporting e = 0 :=
    congrArg Prod.fst ((hquiet !e.client).draws (·.reportingDelay) w.rng)
  intro y hy
  unfold follow at hy
  rcases hp.kind with hk | hk | hk | hk
  · rw [hk] at hy
    obtain rfl := Multiset.mem_singleton.mp hy
    simp [SimEvent.due, SimEvent.tunnelSent, hk]
  · rw [hk] at hy
    obtain rfl := Multiset.mem_singleton.mp hy
    have hbottleneck : w.bottleneck e = 0 := by
      unfold bottleneck
      rw [hnow, hfree hk]
      rfl
    simp [SimEvent.due, received, arrival, hp.normal, hp.prompt, hk, hreporting, hbottleneck,
      hdelay, hnow]
  · rw [hk] at hy
    obtain rfl := Multiset.mem_singleton.mp hy
    simp [SimEvent.due, hk]
  · rw [hk] at hy
    exact absurd hy (Multiset.notMem_zero y)

variable [RngCore R] {args : SimulatorArgs G}

/-- Nor does the body of the main loop compute more. -/
theorem Plain.iterateAmounts_fit {w : Sim R G} {e : SimEvent} {l : List Crossing}
    (hfew : ∀ c, Uncrowded ((Duration.fromMillis 1000 : Duration) : Int) limit (packets c))
    (h : Plain limit packets (.returned e w) l) (hin : InTime range delay (.returned e w))
    (hdelay : w.network.network.delay = delay) (hforward : w.currentTime ≤ e.time) :
    Fit range (w.iterateAmounts args e) := by
  have hhand : e ∈ e ::ₘ w.sq.items := Multiset.mem_cons_self e _
  have hp := (h.events e hhand).1
  have hfits := hin.fits (fun y hy => (h.events y hy).2) hhand
  let sending : Sim R G := { w with currentTime := e.time }
  have hquiet : ∀ c, Quiet (sending.side c) := by
    intro c
    cases c with
    | true => exact h.quiet true
    | false => exact h.quiet false
  have hnetwork : Fit range (sending.networkAmounts e) := by
    unfold networkAmounts
    rcases hp.kind with hk | hk | hk | hk
    · rw [hk]
      exact Fit.nil
    · have hdue : e.time + delay ≤ range.last := by
        have hreceived := hin.received e hhand
        unfold SimEvent.due at hreceived
        rwa [if_pos (.inr hk)] at hreceived
      rw [hk]
      have hfree := (h.crossing hfew hforward hk (x := ⟨e, e, 0⟩) rfl).1
      exact Plain.sendAmounts_fit hp hquiet hfree hdelay hfits hdue
    · rw [hk]
      exact Fit.nil
    · rw [hk]
      exact Fit.nil
  unfold iterateAmounts
  refine hnetwork.append ?_
  cases hs : ({ w with currentTime := e.time } : Sim R G).simNetworkStack e with
  | error fault => exact Fit.nil
  | ok found =>
    obtain ⟨networkActivity, w'⟩ := found
    have hside : Quiet (w'.side e.client) := by
      rw [sends_side (simNetworkStack_ok hs)]
      exact hquiet e.client
    have htrigger : Fit range (w'.triggerAmounts e) := by
      unfold triggerAmounts
      dsimp only
      cases hcall : (w'.side e.client).framework.triggerEvents [e.event] w'.currentTime with
      | error fault => exact Fit.nil
      | ok returned =>
        obtain ⟨actions, framework⟩ := returned
        obtain ⟨rfl, _⟩ := silent hside.slots hcall
        exact Fit.nil
    refine htrigger.append ?_
    split
    · rw [adjusted_prompt hp.prompt]
      exact .cons hfits .nil
    · exact Fit.nil

/-- A step of a run without machines leaves all packets within the range. -/
theorem Plain.inTime {cfg cfg' : Config R G} {l : List Crossing} (hwf : cfg.sim.sq.WellFormed)
    (hfew : ∀ c, Uncrowded ((Duration.fromMillis 1000 : Duration) : Int) limit (packets c))
    (h : Plain limit packets cfg l) (hin : InTime range delay cfg)
    (hdelay : cfg.sim.network.network.delay = delay) (hnext : cfg.next args = .ok cfg') :
    InTime range delay cfg' := by
  cases cfg with
  | picking w =>
    obtain ⟨p, w', hstep, rfl⟩ := next_picking hnext
    have hlater : ∀ y ∈ w.sq.items, w.currentTime ≤ y.time := fun y hy => (h.events y hy).2
    rcases picks_quiet hwf h.quiet h.network.delays h.network.base hlater (pickStep_ok hstep) with
      ⟨rfl, rfl, _⟩ | ⟨e, k, c, rfl, rfl, hpeek, _⟩
    · exact ⟨hin.begun, hin.received⟩
    · have hitems : e ::ₘ (w.sq.popped k c).items = w.sq.items := SimQueue.items_popped hpeek
      have hmem : e ∈ w.sq.items := hitems ▸ Multiset.mem_cons_self e _
      refine ⟨hin.begun.trans (hlater e hmem), ?_⟩
      intro y hy
      change y ∈ e ::ₘ (w.sq.popped k c).items at hy
      rw [hitems] at hy
      exact hin.received y hy
  | returned e w =>
    obtain ⟨stop, w', hit, _, hcfg⟩ := next_returned hnext
    have hiterates := (iterate_ok hit).1
    have hquiet : ∀ c, Quiet (w.side c) := h.quiet
    obtain ⟨a, w1, hs, hsq, _, htime, _⟩ := iterates_quiet hquiet hiterates
    have hhand : e ∈ e ::ₘ w.sq.items := Multiset.mem_cons_self e _
    have hp := (h.events e hhand).1
    let sending : Sim R G := { w with currentTime := e.time }
    have hsending : ∀ c, Quiet (sending.side c) := by
      intro c
      cases c with
      | true => exact hquiet true
      | false => exact hquiet false
    have hfree (hk : e.event = .tunnelSent) : (w.network.sample e.time e.client).1.2 = none :=
      (h.crossing hfew hiterates.forward hk (x := ⟨e, e, 0⟩) rfl).1
    have hitems : w'.sq.items = sending.follow e + w.sq.items := hsq ▸ (sends_follow hp hs).1
    have hnew : InTime range delay (.picking w' : Config R G) := by
      refine ⟨?_, ?_⟩
      · change range.first ≤ w'.currentTime
        exact htime ▸ hin.begun
      · intro y hy
        change y ∈ w'.sq.items at hy
        rw [hitems] at hy
        rcases Multiset.mem_add.mp hy with hy | hy
        · exact (follow_due hp hsending rfl hdelay hfree y hy).trans
            (hin.received e hhand)
        · exact hin.received y (Multiset.mem_cons_of_mem hy)
    rcases hcfg with rfl | rfl
    · exact hnew
    · exact ⟨hnew.begun, hnew.received⟩
  | done w =>
    obtain rfl := pure_ok.mp hnext
    exact hin

theorem getFirstTime_mem {sq : SimQueue} {t : Instant} (h : sq.getFirstTime = some t) :
    ∃ e ∈ sq.items, e.time = t := by
  have hbase {c : Bool} {u : Instant} (hu : (sq.side c).getFirstBaseTime = some u) :
      ∃ e ∈ sq.items, e.time = u := by
    obtain ⟨e, he, hu⟩ := Option.map_eq_some_iff.mp hu
    exact ⟨e, SimQueue.mem_items.mpr ⟨c, .base, BinaryHeap.peek_mem he⟩, hu⟩
  unfold SimQueue.getFirstTime at h
  cases hc : sq.client.getFirstBaseTime with
  | none =>
    cases hs : sq.server.getFirstBaseTime with
    | none =>
      rw [hc, hs] at h
      exact absurd h (by simp)
    | some s =>
      rw [hc, hs] at h
      obtain rfl := Option.some.inj h
      exact hbase (c := false) hs
  | some c =>
    cases hs : sq.server.getFirstBaseTime with
    | none =>
      rw [hc, hs] at h
      obtain rfl := Option.some.inj h
      exact hbase (c := true) hc
    | some s =>
      rw [hc, hs] at h
      obtain rfl := Option.some.inj h
      rcases min_choice c s with hmin | hmin
      · rw [hmin]
        exact hbase (c := true) hc
      · rw [hmin]
        exact hbase (c := false) hs

theorem start_inTime {sq : SimQueue} {rngClient rngServer : R} {rng : G} {w : Sim R G}
    (h : Sim.start [] [] sq args rngClient rngServer rng = .ok w)
    (hsq : ∀ e ∈ sq.items, range.first ≤ e.time ∧ e.due delay ≤ range.last) :
    InTime range delay (.picking w : Config R G) := by
  obtain ⟨hfirst, _, _, _, hq, _⟩ := start_ok h
  constructor
  · obtain ⟨e, he, htime⟩ := getFirstTime_mem hfirst
    change range.first ≤ w.currentTime
    rw [← htime]
    exact (hsq e he).1
  · intro e he
    change e ∈ w.sq.items at he
    exact (hsq e (hq ▸ he)).2

/-- A run without machines on packets within the range is not changed by the checks. -/
theorem ranged_run {platform : InstantRange} {sq : SimQueue} {w : Sim R G} {l : List Crossing}
    (hrange : platform.Holds range) (hwf : sq.WellFormed)
    (hnone : ∀ e ∈ sq.items, e.event ≠ .tunnelRecv) (hdelay : args.network.delay = delay)
    (hargs : args.maxTraceLength = 0 ∧ args.maxSimIterations = 0)
    (hfew : ∀ c, Uncrowded ((Duration.fromMillis 1000 : Duration) : Int) limit (packets c))
    (hbegin : Crossed args sq (.picking w, l)) (hplain : Plain limit packets (.picking w) l)
    (hin : InTime range delay (.picking w : Config R G)) (fuel : Nat) :
    Ranged.run platform args fuel (.picking w) = (Config.picking w).run args fuel := by
  let good (cfg : Config R G) : Prop := (∃ w, cfg = .done w) ∨
    ∃ l, Crossed args sq (cfg, l) ∧ Plain limit packets cfg l ∧ InTime range delay cfg
  have hnetwork {cfg : Config R G} {l : List Crossing} (hl : Crossed args sq (cfg, l)) :
      cfg.sim.network.network.delay = delay :=
    (congrArg Network.delay (run_crosses hwf hnone hl).network).trans hdelay
  have hgood : good (.picking w) := .inr ⟨l, hbegin, hplain, hin⟩
  refine Ranged.run_eq good ?_ ?_ hgood
  · rintro cfg (⟨v, rfl⟩ | ⟨l, hl, hplain, hin⟩)
    · exact Fit.nil
    · have hreach : Reachable args sq cfg := Crossed.reachable hl
      cases cfg with
      | picking v =>
        exact (hplain.pickAmounts_fit hrange.short (reachable_wellFormed hreach hwf) hin).widen
          hrange
      | returned e v =>
        exact (hplain.iterateAmounts_fit hfew hin (hnetwork hl) (run_ahead hwf hreach).1).widen
          hrange
      | done v => exact Fit.nil
  · rintro cfg cfg' (⟨v, rfl⟩ | ⟨l, hl, hplain, hin⟩) hnext
    · exact .inl ⟨v, (pure_ok.mp hnext).symm⟩
    · have hreach : Reachable args sq cfg := Crossed.reachable hl
      have hin' := hplain.inTime (reachable_wellFormed hreach hwf) hfew hin (hnetwork hl) hnext
      by_cases hdone : ∃ v, cfg = .done v
      · obtain ⟨v, rfl⟩ := hdone
        exact .inl ⟨v, (pure_ok.mp hnext).symm⟩
      · obtain ⟨hplain', _⟩ := hplain.next hwf hargs hfew hreach hnext fun v h => hdone ⟨v, h⟩
        exact .inr ⟨_, .next hl ⟨hnext, rfl⟩, hplain', hin'⟩

end Config

end Maybenot

import Maybenot.Proofs.Runs

namespace Maybenot
open Lib

namespace EventQueue

/-- A normal packet that is still on its way waits on this side. -/
def NormalPending (q : EventQueue) : Prop :=
  (∃ e ∈ q.base.items, e.event = .normalSent) ∨
    (∃ e ∈ q.blocking.items + q.bypassable.items, e.event = .tunnelSent ∧ e.containsPadding = false) ∨
    ∃ e ∈ q.internal.items, e.event = .tunnelRecv ∧ e.containsPadding = false

instance (q : EventQueue) : Decidable q.NormalPending :=
  @instDecidableOr _ _ Multiset.decidableExistsMultiset
    (@instDecidableOr _ _ Multiset.decidableExistsMultiset Multiset.decidableExistsMultiset)

/-- Padding waits on this side. -/
def PaddingQueued (q : EventQueue) : Prop :=
  (∃ e ∈ q.blocking.items + q.bypassable.items, e.event = .tunnelSent ∧ e.containsPadding = true) ∨
    ∃ e ∈ q.internal.items, e.containsPadding = true

instance (q : EventQueue) : Decidable q.PaddingQueued :=
  @instDecidableOr _ _ Multiset.decidableExistsMultiset Multiset.decidableExistsMultiset

/-- The code's test asks for more than it says: no padding may be queued either. -/
theorem noNormalPackets_iff {q : EventQueue} (h : q.WellFormed) :
    q.noNormalPackets = true ↔ ¬ q.NormalPending ∧ ¬ q.PaddingQueued := by
  have hbase : q.base.isEmpty = true ↔ ¬ ∃ e ∈ q.base.items, e.event = .normalSent := by
    rw [BinaryHeap.isEmpty_iff]
    constructor
    · intro h0
      simp [h0]
    · intro hno
      exact Multiset.eq_zero_of_forall_notMem fun e he => hno ⟨e, he, home_base (h .base e he)⟩
  have hheld : (∀ e ∈ q.blocking.items + q.bypassable.items,
      e.event ≠ .tunnelSent ∧ e.containsPadding = false) ↔
      ∀ e, e ∉ q.blocking.items + q.bypassable.items := by
    refine ⟨fun hall e he => (hall e he).1 ?_, fun hno e he => absurd he (hno e)⟩
    rcases Multiset.mem_add.mp he with he | he
    · exact (home_blocking (h .blocking e he)).1
    · exact (home_bypassable (h .bypassable e he)).1
  have htunnel : ∀ e ∈ q.blocking.items + q.bypassable.items, e.event = .tunnelSent := by
    intro e he
    rcases Multiset.mem_add.mp he with he | he
    · exact (home_blocking (h .blocking e he)).1
    · exact (home_bypassable (h .bypassable e he)).1
  have hcode : q.noNormalPackets = true ↔ q.base.isEmpty = true ∧
      (∀ e ∈ q.blocking.items + q.bypassable.items,
        e.event ≠ .tunnelSent ∧ e.containsPadding = false) ∧
      ∀ e ∈ q.internal.items, e.event ≠ .tunnelRecv ∧ e.containsPadding = false := by
    simp only [noNormalPackets, Bool.and_eq_true, List.all_eq_true, BinaryHeap.mem_iter,
      bne_iff_ne, Bool.not_eq_true', Multiset.mem_add, or_imp, forall_and]
    tauto
  rw [hcode, hbase, hheld]
  constructor
  · rintro ⟨hb, hno, hi⟩
    refine ⟨?_, ?_⟩
    · rintro (hn | ⟨e, he, _⟩ | ⟨e, he, hr, _⟩)
      · exact hb hn
      · exact hno e he
      · exact (hi e he).1 hr
    · rintro (⟨e, he, _⟩ | ⟨e, he, hp⟩)
      · exact hno e he
      · exact absurd hp (by simp [(hi e he).2])
  · rintro ⟨hn, hp⟩
    refine ⟨fun hb => hn (.inl hb), fun e he => ?_, fun e he => ?_⟩
    · cases hpad : e.containsPadding with
      | false => exact hn (.inr (.inl ⟨e, he, htunnel e he, hpad⟩))
      | true => exact hp (.inl ⟨e, he, htunnel e he, hpad⟩)
    · have hpad : e.containsPadding = false := by
        by_contra hpad
        exact hp (.inr ⟨e, he, by simpa using hpad⟩)
      exact ⟨fun hr => hn (.inr (.inr ⟨e, he, hr, hpad⟩)), hpad⟩

end EventQueue

namespace SimQueue

/-- A normal packet is still on its way. -/
def NormalPending (sq : SimQueue) : Prop := ∃ c, (sq.side c).NormalPending

instance (sq : SimQueue) : Decidable sq.NormalPending :=
  inferInstanceAs (Decidable (∃ c, (sq.side c).NormalPending))

/-- Padding waits in a queue. -/
def PaddingQueued (sq : SimQueue) : Prop := ∃ c, (sq.side c).PaddingQueued

instance (sq : SimQueue) : Decidable sq.PaddingQueued :=
  inferInstanceAs (Decidable (∃ c, (sq.side c).PaddingQueued))

theorem WellFormed.sides {sq : SimQueue} (h : sq.WellFormed) (c : Bool) :
    (sq.side c).WellFormed := fun k e he => (h c k e he).1

theorem noNormalPackets_iff {sq : SimQueue} (h : sq.WellFormed) :
    sq.noNormalPackets = true ↔ ¬ sq.NormalPending ∧ ¬ sq.PaddingQueued := by
  have hclient := EventQueue.noNormalPackets_iff (h.sides true)
  have hserver := EventQueue.noNormalPackets_iff (h.sides false)
  simp only [side, if_true, Bool.false_eq_true, if_false] at hclient hserver
  simp only [noNormalPackets, Bool.and_eq_true, hclient, hserver, NormalPending, PaddingQueued,
    Bool.exists_bool, side, if_true, Bool.false_eq_true, if_false]
  rw [not_or, not_or, and_comm, and_and_and_comm]

end SimQueue

namespace Config
open Sim

variable {R G : Type} [RngCore R]

/-- Where an iteration ends, the code's test tells whether the normal traffic is done. -/
def TestHolds (args : SimulatorArgs G) (w : Sim R G) : Prop :=
  LimitReached args w ∨ w.sq.NormalPending ∨ ¬ w.sq.PaddingQueued

/-- No iteration from here ends with only padding queued. -/
def NeverOnlyPadding (args : SimulatorArgs G) : Config R G → Prop
  | .returned e w => ∀ stop w', w.iterate args e = .ok (stop, w') → TestHolds args w'
  | _ => True

omit [RngCore R] in
/-- Picking goes on without losing a normal packet. -/
theorem normalPending_again {w w' : Sim R G} (h : Picks w .again w')
    (hw : w.sq.NormalPending) : w'.sq.NormalPending := by
  have hpush (sq : SimQueue) (e : SimEvent) (hp : sq.NormalPending) :
      (sq.pushSim e).NormalPending := by
    have hmem {c : Bool} {k : Queue} {y : SimEvent} (hy : y ∈ ((sq.side c).heap k).items) :
        y ∈ (((sq.pushSim e).side c).heap k).items := SimQueue.mem_pushSim.mpr (.inr hy)
    obtain ⟨c, ⟨y, hy, he⟩ | ⟨y, hy, he⟩ | ⟨y, hy, he⟩⟩ := hp
    · exact ⟨c, .inl ⟨y, hmem (k := .base) hy, he⟩⟩
    · refine ⟨c, .inr (.inl ⟨y, ?_, he⟩)⟩
      rcases Multiset.mem_add.mp hy with hy | hy
      · exact Multiset.mem_add.mpr (.inl (hmem (k := .blocking) hy))
      · exact Multiset.mem_add.mpr (.inr (hmem (k := .bypassable) hy))
    · exact ⟨c, .inr (.inr ⟨y, hmem (k := .internal) hy, he⟩)⟩
  generalize hp : Pick.again = p at h
  cases h with
  | nothing | queued | expiredNow => exact absurd hp (by simp)
  | delayed hq hn hne => exact hw
  | expiredLater hq hb hle hn hd hpos => exact hpush _ _ (by simpa [unblocked, note] using hw)
  | timer hq hi hle hlt hdue => exact hpush _ _ (by simpa [timerFired] using hw)
  | padding hq hs hlt hdue ha hd => exact hpush _ _ (by simpa [actionFired] using hw)
  | block hq hs hlt hdue ha hd hd' hx => exact hpush _ _ (by simpa [blockFired, note] using hw)

/-- When a test for two things is as good as the test for one. -/
theorem test_exact {l n p : Prop} : ((l ∨ ¬ n ∧ ¬ p) ↔ (l ∨ ¬ n)) ↔ l ∨ n ∨ ¬ p := by
  by_cases hl : l
  · simp [hl]
  · by_cases hn : n
    · simp [hn]
    · simp [hl, hn]

/-- What the test at the end of an iteration asks for. -/
theorem leaves_iff {args : SimulatorArgs G} {sq : SimQueue} (hsq : sq.Built)
    (hargs : args.continueAfterAllNormalPacketsProcessed = false) {c : Config R G}
    {good : Config R G → Prop} (hc : ReachableBy good args sq c) :
    Leaves args c.sim ↔ LimitReached args c.sim ∨
      ¬ c.sim.sq.NormalPending ∧ ¬ c.sim.sq.PaddingQueued := by
  rw [Leaves, SimQueue.noNormalPackets_iff (reachable_wellFormed hc hsq.wellFormed), hargs]
  simp

/-- A step back to picking leaves a normal packet on its way, if no iteration ends with only
padding queued. -/
theorem pending_step {args : SimulatorArgs G} {sq : SimQueue} (hsq : sq.Built)
    (hargs : args.continueAfterAllNormalPacketsProcessed = false) {c : Config R G} {w' : Sim R G}
    (hc : ReachableBy (NeverOnlyPadding args) args sq c) (hgood : NeverOnlyPadding args c)
    (hnext : c.next args = .ok (.picking w')) (hpos : 0 < w'.simIterations)
    (ih : ∀ w, c = .picking w → 0 < w.simIterations → w.sq.NormalPending) :
    w'.sq.NormalPending := by
  have hl := leaves_iff hsq hargs (.next hc ⟨hgood, hnext⟩)
  cases c with
  | picking w =>
    cases next_ok hnext with
    | again h => exact normalPending_again h (ih w rfl (h.kept.2.2 ▸ hpos))
  | returned e w =>
    simp only [Config.next, bind_ok] at hnext
    obtain ⟨⟨stop, w1⟩, hit, h⟩ := hnext
    cases stop with
    | true => exact absurd (pure_ok.mp h) (by simp)
    | false =>
      obtain rfl := Config.picking.inj (pure_ok.mp h)
      have hstay : ¬ Leaves args w1 := fun hleave =>
        absurd ((iterate_ok hit).2.mpr hleave) (by simp)
      have htest := hgood false w1 hit
      rw [show Leaves args w1 ↔ _ from hl] at hstay
      unfold TestHolds at htest
      change ¬ (LimitReached args w1 ∨ ¬ w1.sq.NormalPending ∧ ¬ w1.sq.PaddingQueued) at hstay
      rcases htest with hlimit | hpending | hpadding
      · exact absurd (.inl hlimit) hstay
      · exact hpending
      · by_contra hnone
        exact hstay (.inr ⟨hnone, hpadding⟩)
  | done w => exact absurd (pure_ok.mp hnext) (by simp)

theorem pending_picking {args : SimulatorArgs G} {sq : SimQueue} (hsq : sq.Built)
    (hargs : args.continueAfterAllNormalPacketsProcessed = false) {c : Config R G}
    (hc : ReachableBy (NeverOnlyPadding args) args sq c) :
    ∀ w, c = .picking w → 0 < w.simIterations → w.sq.NormalPending := by
  refine hc.invariant_of (P := fun c => ∀ w, c = .picking w → 0 < w.simIterations →
    w.sq.NormalPending) ?_ ?_
  · rintro c ⟨_, _, _, _, _, w, hstart, rfl⟩ w' hw' hpos
    obtain rfl := Config.picking.inj hw'
    obtain ⟨_, _, _, _, _, _, _, hzero, _⟩ := start_ok hstart
    exact absurd hpos (by simp [hzero])
  · rintro c c' hc ih ⟨hgood, hnext⟩ w' rfl hpos
    exact pending_step hsq hargs hc hgood hnext hpos ih

/-- The test that ends a simulation is the one for normal packets exactly where a normal
packet is on its way or no padding is queued. -/
theorem normal_traffic_done {args : SimulatorArgs G} {sq : SimQueue} (hsq : sq.Built)
    (hargs : args.continueAfterAllNormalPacketsProcessed = false) :
    ((sq.noNormalPackets = true ↔ ¬ sq.NormalPending) ↔
      (sq.NormalPending ∨ ¬ sq.PaddingQueued)) ∧
    (∀ (e : SimEvent) (w w' : Sim R G) (stop : Bool), Reachable args sq (.returned e w) →
      w.iterate args e = .ok (stop, w') →
      ((stop = true ↔ LimitReached args w' ∨ ¬ w'.sq.NormalPending) ↔ TestHolds args w')) ∧
    ∀ w : Sim R G, ReachableBy (NeverOnlyPadding args) args sq (.picking w) →
      0 < w.simIterations → w.sq.NormalPending := by
  refine ⟨?_, ?_, ?_⟩
  · rw [SimQueue.noNormalPackets_iff hsq.wellFormed]
    simpa using test_exact (l := False)
  · intro e w w' stop hw hit
    obtain ⟨hiterates, hstop⟩ := iterate_ok hit
    have hnext : (Config.returned e w).next args =
        .ok (if stop then Config.done w' else .picking w') := bind_eq hit
    have hsim : (if stop then Config.done w' else Config.picking w').sim = w' := by
      cases stop <;> rfl
    have hl := leaves_iff hsq hargs (.next hw ⟨trivial, hnext⟩)
    rw [hsim] at hl
    rw [show stop = true ↔ _ from hstop.trans hl, TestHolds]
    exact test_exact
  · intro w hw hpos
    exact pending_picking hsq hargs hw w rfl hpos

/-- A queue with one packet to be sent, normal or padding. -/
def onePacket (containsPadding : Bool) : SimQueue :=
  SimQueue.new.pushSim ⟨.tunnelSent, 0, 0, true, containsPadding, false, false⟩

theorem onePacket_built (containsPadding : Bool) : (onePacket containsPadding).Built :=
  .push _ (.new none)

/-- Padding that is queued keeps the test from telling that the normal traffic is done. -/
theorem padding_counts_as_normal :
    (onePacket true).Built ∧
      ¬ ((onePacket true).noNormalPackets = true ↔ ¬ (onePacket true).NormalPending) := by
  refine ⟨onePacket_built true, fun h => ?_⟩
  have htest : (onePacket true).noNormalPackets = false := by decide +kernel
  have hpending : ¬ (onePacket true).NormalPending := by decide +kernel
  exact absurd (h.mpr hpending) (by simp [htest])

/-- Padding that is queued beside a normal packet does not mislead the test. -/
theorem normal_packet_counts :
    let sq := (onePacket false).pushSim ⟨.tunnelSent, 0, 0, true, true, false, false⟩
    sq.PaddingQueued ∧ (sq.noNormalPackets = true ↔ ¬ sq.NormalPending) := by
  intro sq
  have hpending : sq.NormalPending := by decide +kernel
  have hpadding : sq.PaddingQueued := by decide +kernel
  have hbuilt : sq.Built := .push _ (onePacket_built false)
  exact ⟨hpadding, (@normal_traffic_done Unit Unit _ (.new ⟨0, none⟩ 0 true) _ hbuilt
    rfl).1.mpr (.inl hpending)⟩

end Config

end Maybenot

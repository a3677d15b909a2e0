import Maybenot.Proofs.Ranged
import Maybenot.Proofs.Rounds
import Maybenot.Proofs.Settings

namespace Maybenot
open Lib Sim

variable {R G : Type}

/-- Settings whose limits end every run. -/
def SimulatorArgs.Limited (args : SimulatorArgs G) : Prop :=
  0 < args.maxSimIterations ∨
    (0 < args.maxTraceLength ∧ args.onlyClientEvents = false ∧ args.onlyNetworkActivity = false)

/-- A trace within the limits of the settings. -/
def SimulatorArgs.Fits (args : SimulatorArgs G) (trace : List SimEvent) : Prop :=
  (0 < args.maxSimIterations → trace.length ≤ args.maxSimIterations) ∧
    (0 < args.maxTraceLength → trace.length ≤ args.maxTraceLength)

namespace Sim

/-- A simulation that no limit has ended. -/
structure Within (args : SimulatorArgs G) (w : Sim R G) : Prop where
  counted : w.trace.length ≤ w.simIterations
  all : args.onlyClientEvents = false → args.onlyNetworkActivity = false →
    w.trace.length = w.simIterations
  iterations : 0 < args.maxSimIterations → w.simIterations < args.maxSimIterations
  trace : 0 < args.maxTraceLength → w.trace.length < args.maxTraceLength

/-- How many iterations the limits leave. -/
def left (args : SimulatorArgs G) (w : Sim R G) : Nat :=
  if 0 < args.maxSimIterations then args.maxSimIterations - w.simIterations
  else args.maxTraceLength - w.trace.length

variable [RngCore R] {args : SimulatorArgs G}

omit [RngCore R] in
/-- At most one event is recorded in an iteration, and exactly one where nothing is left out. -/
theorem record_length (args : SimulatorArgs G) (w : Sim R G) (e : SimEvent) (a : Bool) :
    (w.record args e a).trace.length ≤ w.trace.length + 1 ∧
      (args.onlyClientEvents = false → args.onlyNetworkActivity = false →
        (w.record args e a).trace.length = w.trace.length + 1) ∧
      (w.record args e a).simIterations = w.simIterations := by
  unfold record
  split
  · simp
  · rename_i hskip
    refine ⟨Nat.le_succ _, fun hclient hnetwork => ?_, rfl⟩
    rw [hclient, hnetwork] at hskip
    exact absurd rfl hskip

omit [RngCore R] in
theorem Within.conclude {w u w' : Sim R G} {e : SimEvent} {a stop : Bool} (h : Within args w)
    (htrace : u.trace = w.trace) (hcount : u.simIterations = w.simIterations)
    (hconclude : u.conclude args e a = (stop, w')) :
    args.Fits w'.trace ∧ (stop = false → Within args w' ∧
      (args.Limited → w'.left args < w.left args)) := by
  obtain ⟨hlen, hall, hiterations⟩ := record_length args u e a
  rw [htrace] at hlen hall
  rw [hcount] at hiterations
  have hcounted := h.counted
  have htraceBelow := h.trace
  have hiterationsBelow := h.iterations
  have hallCounted := h.all
  unfold Sim.conclude at hconclude
  dsimp only [note] at hconclude
  generalize u.record args e a = v at hlen hall hiterations hconclude
  split at hconclude
  · obtain ⟨rfl, rfl⟩ := Prod.mk.inj hconclude
    refine ⟨⟨fun hpos => ?_, fun hpos => ?_⟩, fun hstop => absurd hstop (by simp)⟩
    · have hbelow := hiterationsBelow hpos
      dsimp only
      omega
    · have hbelow := htraceBelow hpos
      dsimp only
      omega
  · rename_i hlimit
    obtain ⟨hstop, rfl⟩ := Prod.mk.inj hconclude
    dsimp only at hlimit hstop ⊢
    refine ⟨⟨fun hpos => ?_, fun hpos => ?_⟩, fun hstay => ?_⟩
    · have hbelow := hiterationsBelow hpos
      omega
    · omega
    · rw [hstay, Bool.or_eq_false_iff, decide_eq_false_iff_not] at hstop
      refine ⟨⟨?_, ?_, ?_, ?_⟩, ?_⟩
      · dsimp only
        omega
      · intro hclient hnetwork
        have hlast := hall hclient hnetwork
        have hbefore := hallCounted hclient hnetwork
        dsimp only
        omega
      · dsimp only
        omega
      · dsimp only
        omega
      · intro hargs
        unfold left
        dsimp only
        split
        · rename_i hpos
          have hbelow := hiterationsBelow hpos
          omega
        · rename_i hnone
          obtain ⟨hpos, hclient, hnetwork⟩ := hargs.resolve_left hnone
          have hlast := hall hclient hnetwork
          omega

/-- An iteration comes closer to the limits, and does not pass them. -/
theorem Within.iterate {w w' : Sim R G} {e : SimEvent} {stop : Bool} (h : Within args w)
    (hiterate : w.iterate args e = .ok (stop, w')) :
    args.Fits w'.trace ∧ (stop = false → Within args w' ∧
      (args.Limited → w'.left args < w.left args)) := by
  have htime : w.currentTime ≤ e.time := (iterate_ok hiterate).1.forward
  rw [iterate_eq _ htime] at hiterate
  cases hprocess : w.process e with
  | error fault =>
    rw [hprocess] at hiterate
    cases hiterate
  | ok r =>
    obtain ⟨a, u⟩ := r
    obtain ⟨-, htrace, hcount⟩ := process_ok hprocess
    rw [hprocess] at hiterate
    exact h.conclude htrace hcount (Except.ok.inj hiterate)

end Sim

namespace Config

variable [RngCore R] {args : SimulatorArgs G}

/-- What is left of a search for the next event. -/
def stage : Config R G → Nat
  | .picking w => w.weight + 1
  | .returned _ _ | .done _ => 0

omit [RngCore R] in
theorem within_fits {w : Sim R G} (h : Within args w) : args.Fits w.trace :=
  ⟨fun hpos => h.counted.trans (h.iterations hpos).le, fun hpos => (h.trace hpos).le⟩

theorem run_step {k k' : Config R G} {fuel : Nat} {w : Sim R G} (h : k.next args = .ok k')
    (hrun : k'.run args fuel = .ok w) : k.run args (fuel + 1) = .ok w := by
  cases k with
  | done v =>
    obtain rfl := pure_ok.mp h
    rw [run_done] at hrun ⊢
    exact hrun
  | picking v => exact (bind_eq h).trans hrun
  | returned e v => exact (bind_eq h).trans hrun

omit [RngCore R] in
theorem picks_within {w w' : Sim R G} {p : Pick} (h : Within args w) (hp : Picks w p w') :
    Within args w' ∧ w'.left args = w.left args := by
  obtain ⟨-, htrace, hiterations⟩ := hp.kept
  refine ⟨⟨?_, ?_, ?_, ?_⟩, ?_⟩
  · rw [htrace, hiterations]
    exact h.counted
  · rw [htrace, hiterations]
    exact h.all
  · rw [hiterations]
    exact h.iterations
  · rw [htrace]
    exact h.trace
  · unfold left
    rw [htrace, hiterations]

/-- A step ends a run within its limits, or comes closer to its end. -/
theorem next_within (hargs : args.Limited) {k k' : Config R G} (h : k.next args = .ok k')
    (hdone : ∀ v, k ≠ .done v) (hwithin : Within args k.sim) :
    (∃ v, k' = .done v ∧ args.Fits v.trace) ∨
      ((∀ v, k' ≠ .done v) ∧ Within args k'.sim ∧
        (k'.sim.left args < k.sim.left args ∨
          k'.sim.left args = k.sim.left args ∧ k'.stage < k.stage)) := by
  cases k with
  | done v => exact absurd rfl (hdone v)
  | picking w =>
    cases next_ok h with
    | again hp =>
      obtain ⟨hwithin', hleft⟩ := picks_within hwithin hp
      exact .inr ⟨by simp, hwithin', .inr ⟨hleft, Nat.succ_lt_succ (again_weight hp)⟩⟩
    | finished hp => exact .inl ⟨_, rfl, within_fits (picks_within hwithin hp).1⟩
    | found hp =>
      obtain ⟨hwithin', hleft⟩ := picks_within hwithin hp
      exact .inr ⟨by simp, hwithin', .inr ⟨hleft, Nat.succ_pos _⟩⟩
  | returned e w =>
    obtain ⟨⟨stop, w'⟩, hiterate, h⟩ := bind_ok.mp (show (w.iterate args e >>= _) = _ from h)
    obtain rfl := pure_ok.mp h
    obtain ⟨hfits, hstays⟩ := Within.iterate hwithin hiterate
    cases stop with
    | true => exact .inl ⟨w', rfl, hfits⟩
    | false =>
      obtain ⟨hwithin', hless⟩ := hstays rfl
      exact .inr ⟨by simp, hwithin', .inl (hless hargs)⟩

/-- Every run of limited settings ends: a search for the next event does, and each event comes
closer to a limit. -/
theorem run_ends (hargs : args.Limited) {sq : SimQueue} (hsq : sq.WellFormed) {k : Config R G}
    (hr : Reachable args sq k) (hdone : ∀ v, k ≠ .done v) (hwithin : Within args k.sim) :
    ∃ fuel w, k.run args fuel = .ok w ∧ args.Fits w.trace := by
  induction hleft : k.sim.left args using Nat.strong_induction_on generalizing k with
  | _ n ihleft =>
    induction hstage : k.stage using Nat.strong_induction_on generalizing k with
    | _ m ihstage =>
      obtain ⟨k', hnext, -⟩ := next_total args (reachable_sound hsq hr)
        (reachable_wellFormed hr hsq) (run_ahead hsq hr).1
      have hr' := Reach.next hr ⟨trivial, hnext⟩
      have hrest (h : ∃ fuel w, k'.run args fuel = .ok w ∧ args.Fits w.trace) :
          ∃ fuel w, k.run args fuel = .ok w ∧ args.Fits w.trace := by
        obtain ⟨fuel, w, hrun, hfits⟩ := h
        exact ⟨fuel + 1, w, run_step hnext hrun, hfits⟩
      rcases next_within hargs hnext hdone hwithin with
        ⟨v, rfl, hfits⟩ | ⟨hdone', hwithin', hless | ⟨hsame, hless⟩⟩
      · exact hrest ⟨0, v, run_done args 0 v, hfits⟩
      · exact hrest (ihleft _ (hleft ▸ hless) hr' hdone' hwithin' rfl)
      · exact hrest (ihstage _ (hstage ▸ hless) hr' hdone' hwithin' (hsame.trans hleft) rfl)

end Config

theorem sorted_byTime (es : List SimEvent) :
    (es.mergeSort fun a b => decide (a.time ≤ b.time)).Pairwise fun a b => a.time ≤ b.time := by
  refine (List.pairwise_mergeSort ?_ ?_ es).imp of_decide_eq_true
  · intro a b c hab hbc
    exact decide_eq_true ((of_decide_eq_true hab).trans (of_decide_eq_true hbc))
  · intro a b
    rw [Bool.or_eq_true]
    exact (le_total a.time b.time).imp decide_eq_true decide_eq_true

/-- A limit of six iterations, for a run that goes on after its packets. -/
def sixIterations : SimulatorArgs Unit :=
  { (.new ⟨10, none⟩ 0 true : SimulatorArgs Unit) with
    maxSimIterations := 6, continueAfterAllNormalPacketsProcessed := true }

end Maybenot

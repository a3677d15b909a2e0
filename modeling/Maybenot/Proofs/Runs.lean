import Maybenot.Lib.Run
import Maybenot.Proofs.Iterate

namespace Maybenot
open Lib

/-- A new bottleneck has counted no packet and delays none. -/
theorem NetworkBottleneck.new_ok {network : Network} {window : Duration} {queuePps : Option Nat}
    {n : NetworkBottleneck} (h : NetworkBottleneck.new network window queuePps = .ok n) :
    n.network = network ∧ n.aggregateDelayQueue.items = 0 ∧ (∀ c, n.aggregateBaseDelay c = 0) ∧
      n.ppsLimit = network.pps.getD (queuePps.getD usizeMax) ∧
      n.clientWindow = .new window ∧ n.serverWindow = .new window := by
  unfold NetworkBottleneck.new at h
  dsimp only at h
  split at h
  · exact absurd h (by simp)
  · obtain rfl := Except.ok.inj h
    refine ⟨rfl, rfl, ?_, rfl, rfl, rfl⟩
    intro c
    cases c <;> rfl

variable {R G : Type} [RngCore R]

namespace Config
open Sim

/-- Whether the main loop is left after an iteration. -/
def Leaves (args : SimulatorArgs G) (w : Sim R G) : Prop :=
  LimitReached args w ∨
    (args.continueAfterAllNormalPacketsProcessed = false ∧ w.sq.noNormalPackets = true)

/-- What a step of a run can be. -/
inductive Steps (args : SimulatorArgs G) : Config R G → Config R G → Prop
  | again (h : Picks w .again w') : Steps args (.picking w) (.picking w')
  | finished (h : Picks w (.found none) w') : Steps args (.picking w) (.done w')
  | found (h : Picks w (.found (some e)) w') : Steps args (.picking w) (.returned e w')
  | stay (h : Iterates args w e w') (hstay : ¬ Leaves args w') :
      Steps args (.returned e w) (.picking w')
  | leave (h : Iterates args w e w') (hleave : Leaves args w') :
      Steps args (.returned e w) (.done w')
  | stopped : Steps args (.done w) (.done w)

theorem next_ok {args : SimulatorArgs G} {c c' : Config R G} (h : c.next args = .ok c') :
    Steps args c c' := by
  cases c with
  | picking w =>
    simp only [next, bind_ok] at h
    obtain ⟨⟨p, w'⟩, hp, h⟩ := h
    have hpicks := pickStep_ok hp
    split at h
    · rename_i he
      obtain ⟨rfl, rfl⟩ := Prod.mk.inj he
      exact pure_ok.mp h ▸ .again hpicks
    · rename_i he
      obtain ⟨rfl, rfl⟩ := Prod.mk.inj he
      exact pure_ok.mp h ▸ .finished hpicks
    · rename_i he
      obtain ⟨rfl, rfl⟩ := Prod.mk.inj he
      exact pure_ok.mp h ▸ .found hpicks
  | returned e w =>
    simp only [next, bind_ok] at h
    obtain ⟨⟨stop, w'⟩, hit, h⟩ := h
    obtain ⟨hiterates, hstop⟩ := iterate_ok hit
    obtain rfl := pure_ok.mp h
    cases stop with
    | true => exact .leave hiterates (hstop.mp rfl)
    | false => exact .stay hiterates fun hl => absurd (hstop.mpr hl) (by simp)
  | done w => exact pure_ok.mp h ▸ .stopped

/-- The start of a run on a queue, with any machines and sources of randomness. -/
def Begins (args : SimulatorArgs G) (sq : SimQueue) (c : Config R G) : Prop :=
  ∃ machinesClient machinesServer rngClient rngServer rng w,
    Sim.start machinesClient machinesServer sq args rngClient rngServer rng = .ok w ∧
      c = .picking w

/-- The places that runs come to whose steps are all taken where `good` holds. -/
abbrev ReachableBy (good : Config R G → Prop) (args : SimulatorArgs G) (sq : SimQueue) :
    Config R G → Prop :=
  Reach (Begins args sq) fun c c' => good c ∧ c.next args = .ok c'

/-- The places that runs come to. -/
abbrev Reachable (args : SimulatorArgs G) (sq : SimQueue) : Config R G → Prop :=
  ReachableBy (fun _ => True) args sq

/-- The places that the run from a start comes to. -/
abbrev ReachableFrom (args : SimulatorArgs G) (w : Sim R G) : Config R G → Prop :=
  Reach (fun c => c = .picking w) fun c c' => c.next args = .ok c'

theorem ReachableFrom.reachable {args : SimulatorArgs G} {sq : SimQueue} {w : Sim R G}
    {cfg : Config R G} (h : ReachableFrom args w cfg) (hbegins : Begins args sq (.picking w)) :
    Reachable args sq cfg := by
  refine Reach.invariant ?_ ?_ h
  · rintro _ rfl
    exact .start hbegins
  · intro c c' hc hnext
    exact .next hc ⟨trivial, hnext⟩

omit [RngCore R] in
/-- What the events of an `Acted` step do to the queue. -/
theorem foldl_push {P : SimQueue → Prop} (hpush : ∀ sq e, P sq → P (sq.pushSim e))
    (es : List SimEvent) {sq : SimQueue} (h : P sq) : P (es.foldl SimQueue.pushSim sq) := by
  induction es generalizing sq with
  | nil => exact h
  | cons e es ih => exact ih (hpush sq e h)

/-- The rule for what every push and every pop keeps of the queue. -/
theorem queue_keeps {P : SimQueue → Prop} (hpush : ∀ sq e, P sq → P (sq.pushSim e))
    (hpop : ∀ sq k c, P sq → P (sq.popped k c)) {args : SimulatorArgs G} {c c' : Config R G}
    (h : Steps args c c') (hc : P c.sim.sq) : P c'.sim.sq := by
  have hpicks {w w' : Sim R G} {p : Pick} (h : Picks w p w') (hw : P w.sq) : P w'.sq := by
    cases h with
    | nothing hq hs hi hb hn => exact hw
    | delayed hq hn hne => exact hw
    | expiredLater hq hb hle hn hd hpos => exact hpush _ _ (by simpa [unblocked, note] using hw)
    | expiredNow hq hb hle hn hd hnext => simpa [unblocked, note] using hw
    | queued hq hle hlt hhead hqueued hnext => exact hpop _ _ _ hw
    | timer hq hi hle hlt hdue => exact hpush _ _ (by simpa [timerFired] using hw)
    | padding hq hs hlt hdue ha hd => exact hpush _ _ (by simpa [actionFired] using hw)
    | block hq hs hlt hdue ha hd hd' hx => exact hpush _ _ (by simpa [blockFired, note] using hw)
  have hsends {w w' : Sim R G} {e : SimEvent} {a : Bool} (h : Sends w e a w') (hw : P w.sq) :
      P w'.sq := by
    cases h with
    | normal he => exact hpush _ _ hw
    | kept he hr hb hq => exact hw
    | swapped he hr hb hq hn => exact hpush _ _ (hpop _ _ _ hw)
    | padded he hq => exact hpush _ _ hw
    | sent he => exact hpush _ _ hw
    | received he => exact hpush _ _ hw
    | apart he => exact hw
  have hiterates {w w' : Sim R G} {e : SimEvent} (h : Iterates args w e w') (hw : P w.sq) :
      P w'.sq := by
    obtain ⟨_, a, w1, w2, hs, ht, n, rfl⟩ := h
    obtain ⟨_, _, w3, _, _, _, hsq, _, hacted⟩ := triggerUpdate_ok ht
    obtain ⟨ms, hms⟩ := hacted.queue
    have hrecord : (w2.record args e a).sq = w2.sq := by
      unfold record
      split <;> rfl
    change P (w2.record args e a).sq
    rw [hrecord, hms, hsq]
    exact foldl_push hpush _ (hsends hs hw)
  cases h with
  | again h => exact hpicks h hc
  | finished h => exact hpicks h hc
  | found h => exact hpicks h hc
  | stay h hstay => exact hiterates h hc
  | leave h hleave => exact hiterates h hc
  | stopped => exact hc

theorem start_ok {machinesClient machinesServer : List Machine} {sq : SimQueue}
    {args : SimulatorArgs G} {rngClient rngServer : R} {rng : G} {w : Sim R G}
    (h : Sim.start machinesClient machinesServer sq args rngClient rngServer rng = .ok w) :
    sq.getFirstTime = some w.currentTime ∧
      SimState.new machinesClient w.currentTime args.maxPaddingFracClient
        args.maxBlockingFracClient args.clientIntegration rngClient = .ok w.client ∧
      SimState.new machinesServer w.currentTime args.maxPaddingFracServer
        args.maxBlockingFracServer args.serverIntegration rngServer = .ok w.server ∧
      NetworkBottleneck.new args.network (Duration.fromMillis 1000) sq.maxPps = .ok w.network ∧
      w.sq = sq ∧ w.rng = rng ∧ w.trace = [] ∧ w.simIterations = 0 ∧ w.log = [] := by
  simp only [Sim.start, bind_ok, unwrap_ok] at h
  obtain ⟨_, ht, _, hc, _, hs, _, hn, h⟩ := h
  obtain rfl := pure_ok.mp h
  exact ⟨ht, hc, hs, hn, rfl, rfl, rfl, rfl, rfl⟩

/-- The rule for invariants of the queue over a whole run. -/
theorem queue_invariant {P : SimQueue → Prop} (hpush : ∀ sq e, P sq → P (sq.pushSim e))
    (hpop : ∀ sq k c, P sq → P (sq.popped k c)) {good : Config R G → Prop}
    {args : SimulatorArgs G} {sq : SimQueue} {c : Config R G} (h : ReachableBy good args sq c)
    (hsq : P sq) : P c.sim.sq := by
  refine h.invariant (P := fun c => P c.sim.sq) ?_ fun _ _ hc hs =>
    queue_keeps hpush hpop (next_ok hs.2) hc
  rintro c ⟨_, _, _, _, _, w, hstart, rfl⟩
  exact (start_ok hstart).2.2.2.2.1.symm ▸ hsq

theorem reachable_wellFormed {good : Config R G → Prop} {args : SimulatorArgs G} {sq : SimQueue}
    {c : Config R G} (h : ReachableBy good args sq c) (hsq : sq.WellFormed) :
    c.sim.sq.WellFormed :=
  queue_invariant (fun _ e h => h.pushSim e) (fun _ k c h => h.popped k c) h hsq

/-- The place a run comes to in so many steps. -/
def after (args : SimulatorArgs G) : Nat → Config R G → Exec (Config R G)
  | 0, c => return c
  | n + 1, c => do after args n (← c.next args)

theorem after_reachable {args : SimulatorArgs G} {sq : SimQueue} {n : Nat} {c c' : Config R G}
    (hc : Reachable args sq c) (h : c.after args n = .ok c') : Reachable args sq c' := by
  induction n generalizing c with
  | zero => exact pure_ok.mp h ▸ hc
  | succ n ih =>
    simp only [after, bind_ok] at h
    obtain ⟨c1, hnext, h⟩ := h
    exact ih (.next hc ⟨trivial, hnext⟩) h

theorem after_from {args : SimulatorArgs G} {n : Nat} {w : Sim R G} {c c' : Config R G}
    (hc : ReachableFrom args w c) (h : c.after args n = .ok c') : ReachableFrom args w c' := by
  induction n generalizing c with
  | zero => exact pure_ok.mp h ▸ hc
  | succ n ih =>
    simp only [after, bind_ok] at h
    obtain ⟨c1, hnext, h⟩ := h
    exact ih (.next hc hnext) h

/-- Where a run of these machines starts, and where it comes to in so many steps. -/
def ranFor (machinesClient machinesServer : List Machine) (sq : SimQueue)
    (args : SimulatorArgs Unit) (n : Nat) : Option (Sim Unit Unit × Config Unit Unit) := do
  let w ← (Sim.start machinesClient machinesServer sq args () () ()).toOption
  let cfg ← ((Config.picking w).after args n).toOption
  return (w, cfg)

theorem ranFor_some {machinesClient machinesServer : List Machine} {sq : SimQueue}
    {args : SimulatorArgs Unit} {n : Nat} {w : Sim Unit Unit} {cfg : Config Unit Unit}
    (h : ranFor machinesClient machinesServer sq args n = some (w, cfg)) :
    Begins args sq (.picking w) ∧ ReachableFrom args w cfg ∧
      Sim.start machinesClient machinesServer sq args () () () = .ok w := by
  simp only [ranFor, Option.bind_eq_bind, Option.bind_eq_some_iff, toOption_eq_some,
    Option.pure_def, Option.some.injEq, Prod.mk.injEq] at h
  obtain ⟨w, hstart, cfg, hafter, rfl, rfl⟩ := h
  exact ⟨⟨_, _, (), (), (), w, hstart, rfl⟩, after_from (.start rfl) hafter, hstart⟩

/-- Whether `good` holds wherever a run takes its first steps. -/
def stays (good : Config R G → Prop) [DecidablePred good] (args : SimulatorArgs G) :
    Nat → Config R G → Bool
  | 0, _ => true
  | n + 1, c =>
    decide (good c) && match c.next args with
      | .ok c' => stays good args n c'
      | .error _ => false

theorem stays_reachable {good : Config R G → Prop} [DecidablePred good] {args : SimulatorArgs G}
    {sq : SimQueue} {n : Nat} {c c' : Config R G} (hc : ReachableBy good args sq c)
    (hgood : stays good args n c = true) (h : c.after args n = .ok c') :
    ReachableBy good args sq c' := by
  induction n generalizing c with
  | zero => exact pure_ok.mp h ▸ hc
  | succ n ih =>
    simp only [after, bind_ok] at h
    obtain ⟨c1, hnext, h⟩ := h
    unfold stays at hgood
    rw [hnext] at hgood
    obtain ⟨hg, hrest⟩ := Bool.and_eq_true_iff.mp hgood
    exact ih (.next hc ⟨of_decide_eq_true hg, hnext⟩) hrest h

end Config

end Maybenot

import Maybenot.Proofs.Progress

namespace Maybenot
open Lib

variable {R G : Type}

/-- How many entries of a list are set. -/
def entries (xs : List (Option α)) : Nat := xs.countP (·.isSome)

theorem entries_cons (x : Option α) (xs : List (Option α)) :
    entries (x :: xs) = entries xs + x.isSome.toNat := by
  cases x <;> simp [entries]

/-- What a side still has to do: each action may start a blocking, and the end of a blocking may
put off the base events of both sides. -/
def SimState.weight (s : SimState R G) : Nat :=
  4 * entries s.scheduledAction + 3 * s.blockingUntil.isSome.toNat +
    entries s.scheduledInternalTimer

namespace Sim

def weight (w : Sim R G) : Nat :=
  w.client.weight + w.server.weight + w.network.aggregateDelayQueue.items.card

/-- The queue has no weight: an event in it ends the recursion. -/
theorem pushSim_weight (w : Sim R G) (e : SimEvent) : (w.pushSim e).weight = w.weight := rfl

theorem takeFirst_entries {p : α → Bool} {xs ys : List (Option α)} {i : Nat} {a : α}
    (h : takeFirst p xs = some (i, a, ys)) : entries xs = entries ys + 1 := by
  induction xs generalizing i ys with
  | nil => exact absurd h (by simp [takeFirst])
  | cons x xs ih =>
    rcases takeFirst_cons h with ⟨_, rfl, _, rfl⟩ | ⟨j, zs, _, rfl, hrest⟩
    · simp [entries_cons]
    · rw [entries_cons, entries_cons, ih hrest]
      omega

/-- Taking what is due leaves one entry less. -/
theorem takeDue_entries {time : α → Instant} {target : Instant}
    {f : SimState R G → List (Option α)} {w : Sim R G} {c : Bool} {i : Nat} {a : α}
    {ys : List (Option α)}
    (h : takeDue time target (f w.client) (f w.server) = some (c, i, a, ys)) :
    entries (f (w.side c)) = entries ys + 1 := by
  unfold takeDue at h
  split at h
  · rename_i r hr
    obtain ⟨rfl, rfl⟩ := Prod.mk.inj (Option.some.inj h)
    exact takeFirst_entries hr
  · obtain ⟨r, hr, heq⟩ := Option.map_eq_some_iff.mp h
    obtain ⟨rfl, rfl⟩ := Prod.mk.inj heq
    exact takeFirst_entries hr

theorem setSide_weight (w : Sim R G) (c : Bool) (s : SimState R G) :
    (w.setSide c s).weight + (w.side c).weight = w.weight + s.weight := by
  cases c <;> simp only [weight, setSide, side, if_true, Bool.false_eq_true, if_false] <;> omega

/-- The end of a blocking puts off the base events of each side once at most. -/
theorem expiryDelay_card (w : Sim R G) (c : Bool) (t : Instant) :
    (w.expiryDelay c t).aggregateDelayQueue.items.card ≤
      w.network.aggregateDelayQueue.items.card + 2 := by
  rcases expiryDelay_prolongs w c t with hsame | ⟨d, hpush⟩
  · rw [NetworkBottleneck.delays_queue hsame]
    exact Nat.le_add_right _ _
  · obtain ⟨client, server, hitems⟩ := pushAggregateDelay_items w.network d t c
    rw [NetworkBottleneck.delays_queue hpush, hitems, Multiset.card_cons, Multiset.card_cons]

theorem unblocked_weight {w : Sim R G} {b : Duration} {c : Bool} {g : G} {u : Instant}
    (hu : (w.side c).blockingUntil = some u) : (w.unblocked b c g).weight < w.weight := by
  have hside := setSide_weight w c { w.side c with blockingUntil := none }
  have hdelay := expiryDelay_card w c (w.currentTime + b)
  have hfree : (w.side c).weight =
      SimState.weight { w.side c with blockingUntil := none } + 3 := by
    simp only [SimState.weight, hu, Option.isSome_some, Option.isSome_none, Bool.toNat_true,
      Bool.toNat_false]
    omega
  have hcard : (w.unblocked b c g).weight + w.network.aggregateDelayQueue.items.card =
      (w.setSide c { w.side c with blockingUntil := none }).weight +
        (w.expiryDelay c (w.currentTime + b)).aggregateDelayQueue.items.card := by
    cases c <;> simp only [weight, unblocked, note, setSide, if_true, Bool.false_eq_true,
      if_false] <;> omega
  omega

theorem popAggregateDelay_card {n : NetworkBottleneck} {x : PendingAggregateDelay}
    (hx : n.aggregateDelayQueue.peek = some x) :
    n.popAggregateDelay.aggregateDelayQueue.items.card + 1 =
      n.aggregateDelayQueue.items.card := by
  rw [BinaryHeap.items_pop hx, Multiset.card_cons]
  unfold NetworkBottleneck.popAggregateDelay
  rw [show n.aggregateDelayQueue.pop = (some x, n.aggregateDelayQueue.pop.2) from
    Prod.ext ((BinaryHeap.pop_fst _).trans hx) rfl]
  dsimp only
  split <;> rfl

theorem timerFired_weight {w : Sim R G} {c : Bool} {timers : List (Option Instant)}
    (h : entries (w.side c).scheduledInternalTimer = entries timers + 1) :
    (w.timerFired c timers).weight < w.weight := by
  have hside := setSide_weight w c { w.side c with scheduledInternalTimer := timers }
  have hless : (w.side c).weight =
      SimState.weight { w.side c with scheduledInternalTimer := timers } + 1 := by
    simp only [SimState.weight, h]
    omega
  unfold timerFired
  omega

theorem actionFired_weight {w : Sim R G} {c : Bool} {actions : List (Option ScheduledAction)}
    (h : entries (w.side c).scheduledAction = entries actions + 1) :
    (w.actionFired c actions).weight < w.weight := by
  have hside := setSide_weight w c { w.side c with scheduledAction := actions }
  have hless : (w.side c).weight =
      SimState.weight { w.side c with scheduledAction := actions } + 4 := by
    simp only [SimState.weight, h]
    omega
  unfold actionFired
  omega

theorem block_weight (s : SimState R G) (time block : Instant) (bypass replace : Bool) :
    (s.block time block bypass replace).weight ≤ s.weight + 3 := by
  unfold SimState.block
  split
  · simp only [SimState.weight, Option.isSome_some, Bool.toNat_true]
    omega
  · exact Nat.le_add_right _ _

theorem blockFired_weight {w : Sim R G} {c : Bool} {actions : List (Option ScheduledAction)}
    (h : entries (w.side c).scheduledAction = entries actions + 1) (time block : Instant)
    (bypass replace : Bool) (g : G) (step : SimStep) :
    (w.blockFired c ({ w.side c with scheduledAction := actions }.block time block bypass replace)
      g step).weight < w.weight := by
  have hside := setSide_weight w c
    ({ w.side c with scheduledAction := actions }.block time block bypass replace)
  have hblock := block_weight { w.side c with scheduledAction := actions } time block bypass replace
  have hless : (w.side c).weight =
      SimState.weight { w.side c with scheduledAction := actions } + 4 := by
    simp only [SimState.weight, h]
    omega
  change (w.setSide c _).weight < _
  omega

/-- Every round of picking that is not the last lowers the weight. -/
theorem again_weight {w w' : Sim R G} (h : Picks w .again w') : w'.weight < w.weight := by
  generalize hp : Pick.again = p at h
  cases h with
  | nothing => cases hp
  | expiredNow => cases hp
  | queued => cases hp
  | delayed hq hn hne =>
    cases hx : w.network.aggregateDelayQueue.peek with
    | none =>
      refine absurd ?_ hne
      unfold delayWait NetworkBottleneck.peekAggregateDelay
      rw [hx]
    | some x =>
      have hcard := popAggregateDelay_card hx
      change w.client.weight + w.server.weight +
        w.network.popAggregateDelay.aggregateDelayQueue.items.card < _
      unfold weight
      omega
  | expiredLater hq hb hle hn hd hpos =>
    obtain ⟨u, hu, _⟩ := expiryWait_some hb
    rw [pushSim_weight]
    exact unblocked_weight hu
  | timer hq hi hle hlt hdue =>
    rw [pushSim_weight]
    exact timerFired_weight (takeDue_entries (f := (·.scheduledInternalTimer)) hdue)
  | padding hq hs hlt hdue ha hd =>
    rw [pushSim_weight]
    exact actionFired_weight (takeDue_entries (f := (·.scheduledAction)) hdue)
  | block hq hs hlt hdue ha hd hd' hx =>
    subst hx
    rw [pushSim_weight]
    exact blockFired_weight (takeDue_entries (f := (·.scheduledAction)) hdue) _ _ _ _ _ _

theorem round_again {w w' : Sim R G} (h : w.round = .inl w') : Picks w .again w' := by
  unfold round at h
  split at h
  · cases h
  · rename_i hstep
    cases h
    exact pickStep_ok hstep
  · cases h

/-- From every state the recursion of `pick_next` ends, after no more rounds than the state
weighs and one. -/
theorem pickNext_ends (w : Sim R G) :
    ∃ r, ∀ n, w.weight < n → w.pickNext n = some r :=
  rounds_end weight (fun _ _ h => again_weight (round_again h)) w

end Sim

namespace Config

variable [RngCore R] {args : SimulatorArgs G}

theorem next_again {w w' : Sim R G} (h : w.pickStep = .ok (.again, w')) :
    (picking w).next args = .ok (.picking w') := bind_eq h

theorem next_found {w w' : Sim R G} {e : SimEvent} (h : w.pickStep = .ok (.found (some e), w')) :
    (picking w).next args = .ok (.returned e w') := bind_eq h

/-- What `pick_next` finds is what a run takes up next. -/
theorem run_pickNext {n : Nat} {w w' : Sim R G} {e : SimEvent}
    (h : w.pickNext n = some (.ok (some e, w'))) (fuel : Nat) :
    ∃ k ≤ n, (picking w).run args (k + fuel) = (returned e w').run args fuel := by
  induction n generalizing w with
  | zero => cases h
  | succ n ih =>
    unfold Sim.pickNext at h
    rw [Lib.rounds] at h
    cases hstep : w.pickStep with
    | error fault =>
      simp [Sim.round, hstep] at h
    | ok r =>
      obtain ⟨p, v⟩ := r
      cases p with
      | found x =>
        obtain ⟨rfl, rfl⟩ : x = some e ∧ v = w' := by simpa [Sim.round, hstep] using h
        refine ⟨1, by omega, ?_⟩
        rw [Nat.add_comm]
        exact bind_eq (next_found hstep)
      | again =>
        simp only [Sim.round, hstep] at h
        obtain ⟨k, hk, hrun⟩ := ih h
        refine ⟨k + 1, by omega, ?_⟩
        rw [Nat.add_right_comm]
        exact (bind_eq (next_again hstep)).trans hrun

end Config

end Maybenot

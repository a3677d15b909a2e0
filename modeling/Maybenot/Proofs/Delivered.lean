import Maybenot.Proofs.Reproduced
import Maybenot.Proofs.Settings

namespace Maybenot.Config
open Lib Sim

variable {R G : Type}

/-- An event in the life of a packet. -/
def Carried (e : SimEvent) : Prop :=
  e.event = .normalSent ∨ e.event = .tunnelSent ∨ e.event = .tunnelRecv ∨
    e.event = .normalRecv ∨ e.event = .paddingRecv

/-- A stage in the life of packets, which tells them by kind, side and padding flag. -/
structure Stage (P : SimEvent → Prop) : Prop where
  carried : ∀ e, P e → Carried e
  same : ∀ e e' : SimEvent, e'.event = e.event → e'.client = e.client →
    e'.containsPadding = e.containsPadding → (P e' ↔ P e)

/-- Events of one kind, at one side, with a padding flag or any. -/
def At (event : TriggerEvent) (c : Bool) (padding : Option Bool) (e : SimEvent) : Prop :=
  e.event = event ∧ e.client = c ∧ ∀ p ∈ padding, e.containsPadding = p

instance (event : TriggerEvent) (c : Bool) (padding : Option Bool) :
    DecidablePred (At event c padding) := fun _ => inferInstanceAs (Decidable (_ ∧ _ ∧ _))

theorem at_stage {event : TriggerEvent} (h : event = .normalSent ∨ event = .tunnelSent ∨
    event = .tunnelRecv ∨ event = .normalRecv ∨ event = .paddingRecv) (c : Bool)
    (padding : Option Bool) : Stage (At event c padding) where
  carried e he := by
    rw [Carried, he.1]
    exact h
  same e e' hev hcl hpad := by
    unfold At
    rw [hev, hcl, hpad]

section Stage

variable {P : SimEvent → Prop} [DecidablePred P]

theorem Stage.other (hP : Stage P) {e : SimEvent} (he : ¬ Carried e) (s : Multiset SimEvent) :
    (e ::ₘ s).countP P = s.countP P :=
  Multiset.countP_cons_of_neg _ fun h => he (hP.carried e h)

theorem Stage.congr (hP : Stage P) {e y : SimEvent} (hev : y.event = e.event)
    (hcl : y.client = e.client) (hpad : y.containsPadding = e.containsPadding)
    (s : Multiset SimEvent) : (y ::ₘ s).countP P = (e ::ₘ s).countP P := by
  simp only [Multiset.countP_cons, hP.same e y hev hcl hpad]

/-- Picking moves no packet to another stage. -/
theorem Stage.picks (hP : Stage P) {w w' : Sim R G} {p : Pick} (h : Picks w p w') :
    (hand p + w'.sq.items).countP P = w.sq.items.countP P := by
  have hpush {w' : Sim R G} {e : SimEvent} (hsq : w'.sq = w.sq) (he : ¬ Carried e) :
      (0 + (w'.pushSim e).sq.items).countP P = w.sq.items.countP P := by
    rw [zero_add, show (w'.pushSim e).sq = w.sq.pushSim e by rw [← hsq]; rfl,
      SimQueue.items_pushSim, hP.other he]
  cases h with
  | nothing | delayed => exact congrArg (Multiset.countP P) (zero_add _)
  | expiredLater hq hb hle hn hd hpos =>
    exact hpush (setSide_sq ..) (by simp [blockingEnded, Carried])
  | expiredNow hq hb hle hn hd hnext =>
    rw [hand, Multiset.singleton_add, hP.other (by simp [hnext, blockingEnded, Carried])]
    exact congrArg (fun sq => sq.items.countP P) (setSide_sq ..)
  | queued hq hle hlt hhead hqueued hnext =>
    obtain ⟨hev, hcl, hpad⟩ := picked_same hqueued hnext
    rw [← SimQueue.items_popped hhead, hand, Multiset.singleton_add]
    exact hP.congr hev hcl hpad _
  | timer hq hi hle hlt hdue => exact hpush (setSide_sq ..) (by simp [Carried])
  | padding hq hs hlt hdue ha hd => exact hpush (setSide_sq ..) (by simp [Carried])
  | block hq hs hlt hdue ha hd hd' hx =>
    exact hpush (setSide_sq ..) (by simp [blockingBegun, Carried])

theorem Stage.timers (hP : Stage P) (c : Bool) (t : Instant) (ms : List MachineId)
    (s : Multiset SimEvent) : (↑(ms.map (timerBegun c t)) + s).countP P = s.countP P := by
  rw [Multiset.countP_add, Nat.add_eq_right, Multiset.countP_eq_zero]
  intro y hy hpy
  obtain ⟨m, _, rfl⟩ := List.mem_map.mp (Multiset.mem_coe.mp hy)
  exact absurd (hP.carried _ hpy) (by simp [timerBegun, Carried])

end Stage

/-- The event that a packet received from the tunnel is passed on with. -/
def passedOn (e : SimEvent) : SimEvent where
  event := if e.containsPadding then .paddingRecv else .normalRecv
  time := e.time
  integrationDelay := e.integrationDelay
  client := e.client
  containsPadding := e.containsPadding
  bypass := false
  replace := false

/-- Each packet of stage `Q` that is processed is queued for stage `P`, and no other is. -/
structure Follows (P Q : SimEvent → Prop) : Prop where
  stage : Stage P
  normal : ∀ e : SimEvent, e.event = .normalSent → (P (e.tunnelSent false false false) ↔ Q e)
  padding : ∀ (e : SimEvent) (machine : MachineId) (bypass replace : Bool),
    e.event = .paddingSent machine → ¬ P (e.tunnelSent true bypass replace) ∧ ¬ Q e
  sent : ∀ (e : SimEvent) (t : Instant) (d : Duration), e.event = .tunnelSent →
    (P (arrival e t d) ↔ Q e)
  received : ∀ e : SimEvent, e.event = .tunnelRecv → (P (passedOn e) ↔ Q e)
  beside : ∀ e : SimEvent, e.event ≠ .normalSent → e.event ≠ .tunnelSent → e.event ≠ .tunnelRecv →
    ¬ Q e

theorem follows_nothing (c : Bool) : Follows (At .normalSent c none) fun _ => False where
  stage := at_stage (.inl rfl) c none
  normal e he := by simp [At, SimEvent.tunnelSent]
  padding e machine bypass replace he := by simp [At, SimEvent.tunnelSent]
  sent e t d he := by simp [At, arrival]
  received e he := by
    unfold passedOn At
    split <;> simp
  beside e h1 h2 h3 := not_false

theorem tunnelSent_follows (c : Bool) :
    Follows (At .tunnelSent c (some false)) (At .normalSent c none) where
  stage := at_stage (.inr (.inl rfl)) c _
  normal e he := by simp [At, SimEvent.tunnelSent, he]
  padding e machine bypass replace he := by simp [At, SimEvent.tunnelSent, he]
  sent e t d he := by simp [At, arrival, he]
  received e he := by
    unfold passedOn At
    split <;> simp [he]
  beside e h1 h2 h3 h := h1 h.1

theorem tunnelRecv_follows (c p : Bool) :
    Follows (At .tunnelRecv (!c) (some p)) (At .tunnelSent c (some p)) where
  stage := at_stage (.inr (.inr (.inl rfl))) _ _
  normal e he := by simp [At, SimEvent.tunnelSent, he]
  padding e machine bypass replace he := by simp [At, SimEvent.tunnelSent, he]
  sent e t d he := by simp [At, arrival, he]
  received e he := by
    unfold passedOn At
    split <;> simp [he]
  beside e h1 h2 h3 h := h2 h.1

theorem recv_follows (c p : Bool) :
    Follows (At (if p then .paddingRecv else .normalRecv) c none)
      (At .tunnelRecv c (some p)) where
  stage := at_stage (by cases p <;> simp) c none
  normal e he := by cases p <;> simp [At, SimEvent.tunnelSent, he]
  padding e machine bypass replace he := by cases p <;> simp [At, SimEvent.tunnelSent, he]
  sent e t d he := by cases p <;> simp [At, arrival, he]
  received e he := by
    cases hpad : e.containsPadding <;> cases p <;> simp [At, passedOn, hpad, he]
  beside e h1 h2 h3 h := h3 h.1

section Book

variable {P Q : SimEvent → Prop} [DecidablePred P] [DecidablePred Q]

theorem Follows.sends (h : Follows P Q) {w w' : Sim R G} {e : SimEvent} {a : Bool}
    (hs : Sends w e a w') :
    w'.sq.items.countP P = w.sq.items.countP P + if Q e then 1 else 0 := by
  have hpush {y : SimEvent} (hy : P y ↔ Q e) (v : Sim R G) (hv : v.sq = w.sq.pushSim y) :
      v.sq.items.countP P = w.sq.items.countP P + if Q e then 1 else 0 := by
    rw [hv, SimQueue.items_pushSim, Multiset.countP_cons]
    simp only [hy]
  cases hs with
  | normal he => exact hpush (h.normal e he) _ rfl
  | kept he hr hb hq => simp [(h.padding e _ false false he).2, note]
  | @swapped _ queued k _ he hr hb hq hn =>
    have hpop := SimQueue.items_popped (peekBlocking_ok hq.1).1
    rw [if_neg (h.padding e _ false false he).2, add_zero, ← hpop]
    apply (congrArg (Multiset.countP _) (SimQueue.items_pushSim _ _)).trans
    exact h.stage.congr (e := queued) (y := { queued with bypass := true, replace := false })
      rfl rfl rfl _
  | padded he hq =>
    obtain ⟨hout, hn⟩ := h.padding e _ e.bypass e.replace he
    exact hpush (iff_of_false hout hn) _ rfl
  | sent he =>
    obtain ⟨t, d, hsq⟩ := w.sendPacket_sq e
    exact hpush (h.sent e t d he) _ hsq
  | received he => exact hpush (h.received e he) _ rfl
  | apart he => rw [if_neg (h.beside e he.1 he.2.2.1 he.2.2.2), add_zero]

/-- The book of a stage, where `n` of its packets were there at the start. -/
def Book (P Q : SimEvent → Prop) [DecidablePred P] [DecidablePred Q] (n : Nat)
    (cfg : Config R G) : Prop :=
  cfg.items.countP P + cfg.sim.processed (fun e => decide (P e)) =
    cfg.sim.processed (fun e => decide (Q e)) + n

theorem Follows.steps [RngCore R] (h : Follows P Q) {args : SimulatorArgs G} {n : Nat}
    {cfg cfg' : Config R G} (hbook : Book P Q n cfg) (hs : Steps args cfg cfg') :
    Book P Q n cfg' := by
  have hpicks {w w' : Sim R G} {p : Pick} {cfg : Config R G} (hbook : Book P Q n (.picking w))
      (hp : Picks w p w') (hsim : cfg.sim = w') (hitems : cfg.items = hand p + w'.sq.items) :
      Book P Q n cfg := by
    unfold Book
    rw [hitems, hsim, h.stage.picks hp, (picks_log hp).1, (picks_log hp).1]
    exact hbook
  have hiterates {w w' : Sim R G} {e : SimEvent} {cfg : Config R G}
      (hbook : Book P Q n (.returned e w)) (hit : Iterates args w e w') (hsim : cfg.sim = w')
      (hitems : cfg.items = w'.sq.items) : Book P Q n cfg := by
    obtain ⟨a, w1, hs, ⟨ms, hsq⟩, hlog⟩ := iterates_counts hit
    have hw := h.sends hs
    change (e ::ₘ w.sq.items).countP P + w.processed (fun e => decide (P e)) =
      w.processed (fun e => decide (Q e)) + n at hbook
    change w1.sq.items.countP P = w.sq.items.countP P + _ at hw
    rw [Multiset.countP_cons] at hbook
    unfold Book
    rw [hitems, hsim, hsq, h.stage.timers, processed_of_log hlog, processed_of_log hlog,
      sends_processed hs, sends_processed hs, hw]
    change _ + (w.processed _ + _) = w.processed _ + _ + n
    simp only [decide_eq_true_eq]
    omega
  cases hs with
  | again hp => exact hpicks hbook hp rfl (zero_add _).symm
  | finished hp => exact hpicks hbook hp rfl (zero_add _).symm
  | found hp => exact hpicks hbook hp rfl (by rw [hand, Multiset.singleton_add]; rfl)
  | stay hit hstay => exact hiterates hbook hit rfl rfl
  | leave hit hleave => exact hiterates hbook hit rfl rfl
  | stopped => exact hbook

end Book

section Drained

/-- A search finds nothing only where no event is left. -/
theorem picks_none {w w' : Sim R G} (hwf : w.sq.WellFormed) (h : Picks w (.found none) w') :
    w' = w ∧ w.sq.items = 0 := by
  cases h with
  | nothing hq hs hi hb hn =>
    refine ⟨rfl, Multiset.eq_zero_of_forall_notMem fun e he => ?_⟩
    obtain ⟨c, k, hk⟩ := SimQueue.mem_items.mp he
    have hother : w.otherWait = ⊤ := top_le_iff.mp (le_otherWait hs.ge hi.ge hb.ge hn.ge)
    rw [queueWait_eq] at hq
    rcases View.peekQueue_spec (v := w.view) hwf w.otherWait with
      ⟨_, hlate⟩ | ⟨c', k', y, hfound, _⟩
    · have hlt := hlate c k e hk
      rw [hother] at hlt
      exact absurd hlt not_top_lt
    · rw [hfound] at hq
      exact absurd (congrArg Prod.fst (Except.ok.inj hq)) (by simp)

variable [RngCore R] {args : SimulatorArgs G} {sq : SimQueue}

/-- A run that is neither limited nor left when the normal packets are over ends with nothing
left. -/
theorem run_drained (hwf : sq.WellFormed)
    (hall : args.continueAfterAllNormalPacketsProcessed = true) {fuel : Nat} {k : Config R G}
    {w : Sim R G} (hr : Reachable args.unlimited sq k) (hdone : ∀ v, k ≠ .done v)
    (h : k.run args.unlimited fuel = .ok w) : w.sq.items = 0 := by
  induction fuel generalizing k with
  | zero =>
    cases k with
    | done v => exact absurd rfl (hdone v)
    | picking v => cases h
    | returned e v => cases h
  | succ fuel ih =>
    obtain ⟨k', hnext, hrun⟩ : ∃ k', k.next args.unlimited = .ok k' ∧
        k'.run args.unlimited fuel = .ok w := by
      cases k with
      | done v => exact absurd rfl (hdone v)
      | picking v => exact bind_ok.mp h
      | returned e v => exact bind_ok.mp h
    have hr' := Reach.next hr ⟨trivial, hnext⟩
    cases next_ok hnext with
    | again hp => exact ih hr' (by simp) hrun
    | found hp => exact ih hr' (by simp) hrun
    | stay hit hstay => exact ih hr' (by simp) hrun
    | stopped => exact absurd rfl (hdone _)
    | finished hp =>
      obtain ⟨rfl, hempty⟩ := picks_none (reachable_wellFormed hr hwf) hp
      rw [run_done] at hrun
      exact Except.ok.inj hrun ▸ hempty
    | leave hit hleave =>
      rcases hleave with (⟨hpos, _⟩ | ⟨hpos, _⟩) | ⟨hstop, _⟩
      · exact absurd hpos (Nat.lt_irrefl 0)
      · exact absurd hpos (Nat.lt_irrefl 0)
      · exact absurd (hall.symm.trans hstop) (by simp)

/-- The trace has what was processed and the settings keep. -/
theorem reachable_trace {k : Config R G} (h : Reachable args sq k) :
    k.sim.trace = ((processedEvents k.sim.log).filter (Recorded args)).map (·.adjusted) := by
  have hpicks {w w' : Sim R G} {p : Pick} (hp : Picks w p w')
      (h : w.trace = ((processedEvents w.log).filter (Recorded args)).map (·.adjusted)) :
      w'.trace = ((processedEvents w'.log).filter (Recorded args)).map (·.adjusted) := by
    rw [hp.kept.2.1, picks_processedEvents hp]
    exact h
  have hiterates {w w' : Sim R G} {e : SimEvent} (hit : Iterates args w e w')
      (h : w.trace = ((processedEvents w.log).filter (Recorded args)).map (·.adjusted)) :
      w'.trace = ((processedEvents w'.log).filter (Recorded args)).map (·.adjusted) := by
    rw [iterates_trace hit, iterates_processedEvents hit, List.filter_append, List.map_append, h]
  refine h.invariant (P := fun k => k.sim.trace =
    ((processedEvents k.sim.log).filter (Recorded args)).map (·.adjusted)) ?_ ?_
  · rintro k ⟨_, _, _, _, _, w, hstart, rfl⟩
    obtain ⟨-, -, -, -, -, -, htrace, -, hlog⟩ := start_ok hstart
    rw [sim, htrace, hlog]
    rfl
  · intro k k' hk hs
    cases next_ok hs.2 with
    | again hp => exact hpicks hp hk
    | finished hp => exact hpicks hp hk
    | found hp => exact hpicks hp hk
    | stay hit hstay => exact hiterates hit hk
    | leave hit hleave => exact hiterates hit hk
    | stopped => exact hk

omit [RngCore R] in
theorem processed_count (w : Sim R G) (p : SimEvent → Bool) :
    w.processed p = (processedEvents w.log).countP p := by
  unfold processed processedEvents
  rw [List.countP_filterMap]
  refine List.countP_congr fun s _ => ?_
  cases s <;> simp

/-- What is counted in the output was processed. -/
theorem output_count {w : Sim R G} (hr : Reachable args.unlimited sq (.done w))
    {p : SimEvent → Bool} (hp : ∀ e : SimEvent, p e.adjusted = p e) :
    (w.trace.mergeSort fun a b => decide (a.time ≤ b.time)).countP p = w.processed p := by
  have htrace : w.trace = ((processedEvents w.log).filter (Recorded args.unlimited)).map
    (·.adjusted) := reachable_trace hr
  have hall : (processedEvents w.log).filter (Recorded args.unlimited) = processedEvents w.log :=
    List.filter_eq_self.mpr fun e _ => rfl
  rw [(List.mergeSort_perm _ _).countP_eq, htrace, hall, processed_count, List.countP_map]
  exact List.countP_congr fun e _ => by rw [Function.comp_apply, hp]

theorem book_reachable {P Q : SimEvent → Prop} [DecidablePred P] [DecidablePred Q]
    (hf : Follows P Q) {k : Config R G} (hr : Reachable args sq k) :
    Book P Q (sq.items.countP P) k := by
  refine hr.invariant (P := Book P Q (sq.items.countP P)) ?_ fun _ _ hk hs =>
    hf.steps hk (next_ok hs.2)
  rintro k ⟨_, _, _, _, _, v, hv, rfl⟩
  obtain ⟨-, -, -, -, hq, -, -, -, hlog⟩ := start_ok hv
  unfold Book processed
  rw [items, sim, hq, hlog]
  exact Nat.add_comm _ _

theorem books_reachable (hsq : sq.BaseTrace) {k : Config R G} (hr : Reachable args sq k) :
    Books (fun c => (sq.side c).base.len) k := by
  refine hr.invariant (P := Books fun c => (sq.side c).base.len) ?_
    fun _ _ hk hs => hk.steps (next_ok hs.2)
  rintro k ⟨_, _, _, _, _, v, hv, rfl⟩
  obtain ⟨-, -, -, -, hq, -, -, -, hlog⟩ := start_ok hv
  exact books_start hsq hq hlog

/-- How many events of one kind a trace has, at one side, with a padding flag or any. -/
def tally (trace : List SimEvent) (event : TriggerEvent) (c : Bool) (padding : Option Bool) : Nat :=
  trace.countP fun e => decide (At event c padding e)

omit [RngCore R] in
theorem at_adjusted (event : TriggerEvent) (c : Bool) (padding : Option Bool) (e : SimEvent) :
    At event c padding e.adjusted ↔ At event c padding e := by
  obtain ⟨hev, hcl, hpad⟩ := adjusted_same e
  unfold At
  rw [hev, hcl, hpad]

end Drained

section Start

variable {sq : SimQueue}

theorem base_event (hsq : sq.BaseTrace) {e : SimEvent} (he : e ∈ sq.items) :
    e.event = .normalSent := by
  obtain ⟨c, k, hk⟩ := SimQueue.mem_items.mp he
  exact hsq.normal c k e hk

theorem base_only (hsq : sq.BaseTrace) {event : TriggerEvent} (hevent : event ≠ .normalSent)
    (c : Bool) (padding : Option Bool) : sq.items.countP (At event c padding) = 0 :=
  countP_none fun _ he h => hevent (h.1.symm.trans (base_event hsq he))

theorem base_count (hsq : sq.BaseTrace) (c : Bool) :
    sq.items.countP (At .normalSent c none) = (sq.side c).base.len := by
  have hside : sq.items.countP (At .normalSent c none) = sq.items.countP (OnTheWay c) := by
    refine Multiset.countP_congr rfl fun e he => ?_
    simp [At, OnTheWay, base_event hsq he]
  have hnone {c : Bool} {k : Queue} {P : SimEvent → Prop} [DecidablePred P]
      (hP : ∀ e, P e → e.event ≠ .normalSent) : ((sq.side c).heap k).items.countP P = 0 :=
    countP_none fun e he h => hP e h (hsq.normal c k e he)
  have hbase : (sq.side c).normalSent = (sq.side c).base.len := by
    rw [← BinaryHeap.card_items]
    exact Multiset.countP_eq_card.mpr fun e he => hsq.normal c .base e he
  have hblocking := hnone (c := c) (k := .blocking)
    (P := fun e => e.event = .tunnelSent ∧ e.containsPadding = false) (by simp_all)
  have hbypassable := hnone (c := c) (k := .bypassable)
    (P := fun e => e.event = .tunnelSent ∧ e.containsPadding = false) (by simp_all)
  have hrecv : (sq.side !c).tunnelRecv false = 0 := hnone (k := .internal) (by simp_all)
  have hnormal : (sq.side !c).normalRecv = 0 := hnone (k := .internal) (by simp_all)
  simp only [EventQueue.heap] at hblocking hbypassable
  rw [hside, onTheWay_queues hsq.built.wellFormed, hbase, hrecv, hnormal, EventQueue.tunnelSent,
    Multiset.countP_add, hblocking, hbypassable]
  rfl

end Start

end Maybenot.Config

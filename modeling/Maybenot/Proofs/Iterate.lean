import Maybenot.Proofs.Picks

namespace Maybenot.Sim
open Lib

variable {R G : Type}

@[simp] theorem side_setSide (w : Sim R G) (c : Bool) (s : SimState R G) :
    (w.setSide c s).side c = s := by
  cases c <;> rfl

@[simp] theorem side_setSide_not (w : Sim R G) (c : Bool) (s : SimState R G) :
    (w.setSide c s).side (!c) = w.side (!c) := by
  cases c <;> rfl

@[simp] theorem setSide_sq (w : Sim R G) (c : Bool) (s : SimState R G) :
    (w.setSide c s).sq = w.sq := by
  cases c <;> rfl

/-- What the steps of the main loop and of the network leave alone. -/
def rest (w : Sim R G) := (w.network, w.currentTime, w.trace, w.simIterations, w.log)

@[simp] theorem setSide_rest (w : Sim R G) (c : Bool) (s : SimState R G) :
    (w.setSide c s).rest = w.rest := by
  cases c <;> rfl

theorem setSide_network (w : Sim R G) (c : Bool) (s : SimState R G) :
    (w.setSide c s).network = w.network :=
  congrArg (·.1) (setSide_rest w c s)

theorem setSide_log (w : Sim R G) (c : Bool) (s : SimState R G) : (w.setSide c s).log = w.log :=
  congrArg (·.2.2.2.2) (setSide_rest w c s)

theorem setSide_same {α : Type} {f : Sim R G → α}
    (hf : ∀ w c s, f { w with client := c, server := s } = f w) (w : Sim R G) (c : Bool)
    (s : SimState R G) : f (w.setSide c s) = f w := by
  cases c
  · exact hf w w.client s
  · exact hf w s w.server

/-- Picking neither moves the clock nor touches the output. -/
theorem Picks.kept {w w' : Sim R G} {p : Pick} (h : Picks w p w') :
    w'.currentTime = w.currentTime ∧ w'.trace = w.trace ∧ w'.simIterations = w.simIterations := by
  have hset (c : Bool) (s : SimState R G) :
      ((w.setSide c s).currentTime, (w.setSide c s).trace, (w.setSide c s).simIterations) =
        (w.currentTime, w.trace, w.simIterations) :=
    setSide_same (f := fun w => (w.currentTime, w.trace, w.simIterations)) (fun _ _ _ => rfl) w c s
  simp only [Prod.mk.injEq] at hset
  cases h with
  | nothing | delayed | queued => exact ⟨rfl, rfl, rfl⟩
  | expiredLater hq hb hle hn hd hpos => exact hset _ _
  | expiredNow hq hb hle hn hd hnext => exact hset _ _
  | timer hq hi hle hlt hdue => exact hset _ _
  | padding hq hs hlt hdue ha hd => exact hset _ _
  | block hq hs hlt hdue ha hd hd' hx => exact hset _ _

@[simp] theorem pushSim_side (w : Sim R G) (e : SimEvent) (c : Bool) :
    (w.pushSim e).side c = w.side c := by
  cases c <;> rfl

/-- The event that a timer of a machine begins. -/
def timerBegun (c : Bool) (time : Instant) (machine : MachineId) : SimEvent where
  client := c
  event := .timerBegin machine
  time := time
  integrationDelay := 0
  bypass := false
  replace := false
  containsPadding := false

/-- What scheduling the actions of a framework does: timers begin, and what is scheduled
is not past. -/
structure Acted (c : Bool) (w w' : Sim R G) : Prop where
  queue : ∃ ms : List MachineId,
    w'.sq = (ms.map (timerBegun c w.currentTime)).foldl SimQueue.pushSim w.sq
  other : w'.side (!c) = w.side (!c)
  blockingUntil : (w'.side c).blockingUntil = (w.side c).blockingUntil
  blockingBypassable : (w'.side c).blockingBypassable = (w.side c).blockingBypassable
  integration : (w'.side c).integration = (w.side c).integration
  framework : (w'.side c).framework = (w.side c).framework
  actions : ∀ a, some a ∈ (w'.side c).scheduledAction →
    some a ∈ (w.side c).scheduledAction ∨ w.currentTime ≤ a.time
  timers : ∀ t, some t ∈ (w'.side c).scheduledInternalTimer →
    some t ∈ (w.side c).scheduledInternalTimer ∨ w.currentTime ≤ t
  rest : w'.rest = w.rest

namespace Acted

variable {c : Bool} {w w' w'' : Sim R G}

theorem refl (c : Bool) (w : Sim R G) : Acted c w w :=
  ⟨⟨[], rfl⟩, rfl, rfl, rfl, rfl, rfl, fun _ => .inl, fun _ => .inl, rfl⟩

theorem time (h : Acted c w w') : w'.currentTime = w.currentTime := congrArg (·.2.1) h.rest

theorem trans (h : Acted c w w') (h' : Acted c w' w'') : Acted c w w'' := by
  obtain ⟨ms, hms⟩ := h.queue
  obtain ⟨ms', hms'⟩ := h'.queue
  refine ⟨⟨ms ++ ms', ?_⟩, h'.other.trans h.other, h'.blockingUntil.trans h.blockingUntil,
    h'.blockingBypassable.trans h.blockingBypassable, h'.integration.trans h.integration,
    h'.framework.trans h.framework, ?_, ?_, h'.rest.trans h.rest⟩
  · rw [hms', hms, h.time, List.map_append, List.foldl_append]
  · intro a ha
    rcases h'.actions a ha with ha | ha
    · exact h.actions a ha
    · exact .inr (h.time ▸ ha)
  · intro t ht
    rcases h'.timers t ht with ht | ht
    · exact h.timers t ht
    · exact .inr (h.time ▸ ht)

theorem begin (c : Bool) (w : Sim R G) {time : Instant} (ht : time = w.currentTime)
    (machine : MachineId) : Acted c w (w.pushSim (timerBegun c time machine)) :=
  ⟨⟨[machine], by rw [ht]; rfl⟩, by simp, by simp, by simp, by simp, by simp,
    fun _ ha => .inl (by simpa using ha), fun _ ht => .inl (by simpa using ht), rfl⟩

end Acted

theorem setAt_ok {xs ys : List α} {i : Nat} {x : α} :
    setAt xs i x = .ok ys ↔ i < xs.length ∧ ys = xs.set i x := by
  unfold setAt
  split <;> simp_all [eq_comm]

/-- A side with new scheduled actions and timers, none of them past. -/
theorem Acted.schedule {c : Bool} {w : Sim R G} {actions : List (Option ScheduledAction)}
    {timers : List (Option Instant)}
    (ha : ∀ a, some a ∈ actions → some a ∈ (w.side c).scheduledAction ∨ w.currentTime ≤ a.time)
    (ht : ∀ t, some t ∈ timers → some t ∈ (w.side c).scheduledInternalTimer ∨ w.currentTime ≤ t) :
    Acted c w (w.setSide c { w.side c with
      scheduledAction := actions, scheduledInternalTimer := timers }) := by
  refine ⟨⟨[], by simp⟩, by simp, by simp, by simp, by simp, by simp, ?_, ?_, by simp⟩
  · simpa using ha
  · simpa using ht

theorem applyAction_ok {c : Bool} {delay : Duration} {w w' : Sim R G}
    {action : TriggerAction Duration} (h : applyAction c delay w action = .ok w') :
    Acted c w w' := by
  have hactions {a : Option ScheduledAction} {i : Nat} (ha : ∀ b, a = some b → w.currentTime ≤ b.time)
      (b : ScheduledAction) (hb : some b ∈ (w.side c).scheduledAction.set i a) :
      some b ∈ (w.side c).scheduledAction ∨ w.currentTime ≤ b.time :=
    (List.mem_or_eq_of_mem_set hb).imp id fun he => ha b he.symm
  have htimers {a : Option Instant} {i : Nat} (ha : ∀ b, a = some b → w.currentTime ≤ b)
      (b : Instant) (hb : some b ∈ (w.side c).scheduledInternalTimer.set i a) :
      some b ∈ (w.side c).scheduledInternalTimer ∨ w.currentTime ≤ b :=
    (List.mem_or_eq_of_mem_set hb).imp id fun he => ha b he.symm
  have hlater (timeout : Duration) : w.currentTime ≤ w.currentTime + timeout + delay := by lia
  cases action with
  | cancel machine timer =>
    cases timer with
    | action =>
      simp only [applyAction, bind_ok, setAt_ok, pure_ok] at h
      obtain ⟨_, ⟨_, rfl⟩, rfl⟩ := h
      exact .schedule (hactions (by simp)) fun _ => .inl
    | internal =>
      simp only [applyAction, bind_ok, setAt_ok, pure_ok] at h
      obtain ⟨_, ⟨_, rfl⟩, rfl⟩ := h
      exact .schedule (fun _ => .inl) (htimers (by simp))
    | all =>
      simp only [applyAction, bind_ok, setAt_ok, pure_ok] at h
      obtain ⟨_, ⟨_, rfl⟩, _, ⟨_, rfl⟩, rfl⟩ := h
      exact .schedule (hactions (by simp)) (htimers (by simp))
  | sendPadding timeout bypass replace machine | blockOutgoing timeout _ bypass replace machine =>
    simp only [applyAction, bind_ok, setAt_ok, pure_ok] at h
    obtain ⟨_, ⟨_, rfl⟩, rfl⟩ := h
    exact .schedule (hactions fun b hb => Option.some.inj hb ▸ hlater timeout) fun _ => .inl
  | updateTimer duration replace machine =>
    simp only [applyAction, bind_ok] at h
    obtain ⟨current, _, h⟩ := h
    split at h
    · simp only [bind_ok, setAt_ok, pure_ok] at h
      obtain ⟨_, ⟨_, rfl⟩, rfl⟩ := h
      let timers := (w.side c).scheduledInternalTimer.set machine (some (w.currentTime + duration))
      have hset : Acted c w (w.setSide c { w.side c with scheduledInternalTimer := timers }) :=
        .schedule (fun _ => .inl) (htimers fun b hb => Option.some.inj hb ▸ by lia)
      exact hset.trans (.begin c _ hset.time.symm machine)
    · exact pure_ok.mp h ▸ .refl c w

/-- What the framework of one side does with an event, and what comes of its actions. -/
theorem triggerUpdate_ok [RngCore R] {w w' : Sim R G} {next : SimEvent}
    (h : w.triggerUpdate next = .ok w') :
    ∃ actions framework w1, (w.side next.client).framework.triggerEvents [next.event]
        w.currentTime = .ok (actions, framework) ∧
      w1.side next.client = { w.side next.client with framework := framework } ∧
      w1.side (!next.client) = w.side (!next.client) ∧ w1.sq = w.sq ∧ w1.rest = w.rest ∧
      Acted next.client w1 w' := by
  simp only [triggerUpdate, bind_ok] at h
  obtain ⟨⟨actions, framework⟩, hcall, h⟩ := h
  refine ⟨actions, framework, _, hcall, ?_, ?_, ?_, ?_,
    foldlM_rel (R := Acted next.client) (.refl _) Acted.trans (fun _ _ _ _ => applyAction_ok) _ _ h⟩
  · cases next.client <;> rfl
  · cases next.client <;> rfl
  · cases next.client <;> rfl
  · cases next.client <;> rfl

theorem peekBlocking_ok {q : EventQueue} {flag : Bool} {e : SimEvent} {k : Queue}
    (h : peekBlocking q flag = (some e, k)) :
    (q.heap k).peek = some e ∧ (k = .blocking ∨ flag = false ∧ k = .bypassable) := by
  unfold peekBlocking at h
  split at h
  · obtain ⟨hp, rfl⟩ := Prod.mk.inj h
    exact ⟨hp, .inl rfl⟩
  · rename_i hflag
    split at h
    · obtain ⟨hp, rfl⟩ := Prod.mk.inj h
      exact ⟨hp, .inl rfl⟩
    · obtain ⟨hp, rfl⟩ := Prod.mk.inj h
      exact ⟨hp, .inr ⟨by simpa using hflag, rfl⟩⟩

/-- The heap that is popped is the one whose head was seen. -/
theorem popBlocking_ok {sq sq' : SimQueue} {flag c : Bool} {e : SimEvent} {k : Queue}
    {delay : Duration} {popped : Option SimEvent}
    (hpeek : peekBlocking (sq.side c) flag = (some e, k))
    (h : sq.popBlocking k flag c delay = .ok (popped, sq')) :
    popped = some e ∧ sq' = sq.popped k c := by
  obtain ⟨hhead, hk⟩ := peekBlocking_ok hpeek
  unfold SimQueue.popBlocking at h
  split at h
  · rename_i hflag
    obtain rfl : k = .blocking := hk.resolve_right (by simp [hflag])
    obtain ⟨rfl, rfl⟩ := Prod.mk.inj (pure_ok.mp h)
    exact ⟨(BinaryHeap.pop_fst _).trans hhead, rfl⟩
  · obtain ⟨rfl, rfl⟩ := SimQueue.pop_ok h
    refine ⟨?_, rfl⟩
    have hne : k ≠ .base := by
      rcases hk with rfl | ⟨_, rfl⟩ <;> simp
    simp [hhead, SimEvent.moved, hne]

/-- A normal packet that padding of the same side may be replaced with. -/
def Replaceable (w : Sim R G) (next queued : SimEvent) (k : Queue) : Prop :=
  peekBlocking (w.sq.side next.client) (w.side next.client).blockingBypassable =
    (some queued, k) ∧
  queued.client = next.client ∧ queued.event = .tunnelSent ∧ queued.containsPadding = false

/-- What the network does with an event. -/
inductive Sends (w : Sim R G) (next : SimEvent) : Bool → Sim R G → Prop
  | normal (he : next.event = .normalSent) :
      Sends w next false (w.pushSim (next.tunnelSent false false false))
  | kept (he : next.event = .paddingSent machine) (hr : next.replace = true)
      (hb : next.bypass = false) (hq : w.Replaceable next queued k) :
      Sends w next false (w.note (.replaced next.client))
  | swapped {bottleneck : NetworkBottleneck} (he : next.event = .paddingSent machine) (hr : next.replace = true)
      (hb : next.bypass = true) (hq : w.Replaceable next queued k)
      (hn : ∀ c, bottleneck.aggregateBaseDelay c = w.network.aggregateBaseDelay c) :
      Sends w next false (note { w with
        sq := (w.sq.popped k next.client).pushSim { queued with bypass := true, replace := false },
        network := bottleneck } (.replaced next.client))
  | padded (he : next.event = .paddingSent machine)
      (hq : next.replace = true → ∀ queued k, ¬ w.Replaceable next queued k) :
      Sends w next false (w.pushSim (next.tunnelSent true next.bypass next.replace))
  | sent (he : next.event = .tunnelSent) : Sends w next true (w.sendPacket next)
  | received (he : next.event = .tunnelRecv) :
      Sends w next true { w with
        sq := w.sq.push (if next.containsPadding then .paddingRecv else .normalRecv) next.client
          next.containsPadding next.time next.integrationDelay }
  | apart (he : next.event ≠ .normalSent ∧ (∀ machine, next.event ≠ .paddingSent machine) ∧
      next.event ≠ .tunnelSent ∧ next.event ≠ .tunnelRecv) : Sends w next false w

/-- The event of a packet that crosses the network. -/
def arrival (e : SimEvent) (time : Instant) (delay : Duration) : SimEvent where
  event := .tunnelRecv
  time := time
  integrationDelay := delay
  client := !e.client
  containsPadding := e.containsPadding
  bypass := false
  replace := false

theorem sendPacket_sq (w : Sim R G) (e : SimEvent) :
    ∃ t d, (w.sendPacket e).sq = w.sq.pushSim (arrival e t d) := ⟨_, _, rfl⟩

theorem pushAggregateDelay_base (n : NetworkBottleneck) (d : Duration) (t : Instant) (c c' : Bool) :
    (n.pushAggregateDelay d t c).aggregateBaseDelay c' = n.aggregateBaseDelay c' := by
  cases c <;> rfl

theorem replacePadding_ok {w : Sim R G} {next : SimEvent} {answer : Option (Sim R G)}
    (h : w.replacePadding next = .ok answer) :
    (answer = none ∧ ∀ queued k, ¬ w.Replaceable next queued k) ∨
      ∃ queued k, w.Replaceable next queued k ∧
        ((next.bypass = false ∧ answer = some (w.note (.replaced next.client))) ∨
          (next.bypass = true ∧ ∃ network : NetworkBottleneck,
            (∀ c, network.aggregateBaseDelay c = w.network.aggregateBaseDelay c) ∧
            answer = some (note { w with
              sq := (w.sq.popped k next.client).pushSim
                { queued with bypass := true, replace := false },
              network := network } (.replaced next.client)))) := by
  unfold replacePadding at h
  dsimp only at h
  split at h
  · rename_i hpeek
    refine .inl ⟨(pure_ok.mp h).symm, fun queued k hq => ?_⟩
    exact absurd (hpeek.symm.trans hq.1) (by simp)
  · rename_i queued k hpeek
    split at h
    · rename_i hcond
      refine .inr ⟨queued, k, ⟨hpeek, hcond⟩, ?_⟩
      split at h
      · rename_i hb
        simp only [bind_ok, unwrap_ok] at h
        obtain ⟨⟨_, sq⟩, hpop, popped, rfl, h⟩ := h
        obtain ⟨he, rfl⟩ := popBlocking_ok hpeek hpop
        obtain rfl := Option.some.inj he
        refine .inr ⟨hb, _, fun c => ?_, (pure_ok.mp h).symm⟩
        split
        · exact pushAggregateDelay_base _ _ _ _ _
        · rfl
      · rename_i hb
        exact .inl ⟨by simpa using hb, (pure_ok.mp h).symm⟩
    · rename_i hcond
      refine .inl ⟨(pure_ok.mp h).symm, fun queued' k' hq => ?_⟩
      obtain ⟨he, _⟩ := Prod.mk.inj (hpeek.symm.trans hq.1)
      obtain rfl := Option.some.inj he
      exact hcond hq.2

theorem simNetworkStack_ok {w w' : Sim R G} {next : SimEvent} {activity : Bool}
    (h : w.simNetworkStack next = .ok (activity, w')) : Sends w next activity w' := by
  unfold simNetworkStack at h
  split at h
  · rename_i he
    obtain ⟨rfl, rfl⟩ := Prod.mk.inj (pure_ok.mp h)
    exact .normal he
  · rename_i he
    split at h
    · rename_i hr
      obtain ⟨answer, ha, h⟩ := bind_ok.mp h
      rcases replacePadding_ok ha with ⟨rfl, hno⟩ | ⟨queued, k, hq, ⟨hb, rfl⟩ | ⟨hb, network, hn, rfl⟩⟩
      · obtain ⟨rfl, rfl⟩ := Prod.mk.inj (pure_ok.mp h)
        exact .padded he fun _ => hno
      · obtain ⟨rfl, rfl⟩ := Prod.mk.inj (pure_ok.mp h)
        exact .kept he hr hb hq
      · obtain ⟨rfl, rfl⟩ := Prod.mk.inj (pure_ok.mp h)
        exact .swapped he hr hb hq hn
    · rename_i hr
      obtain ⟨rfl, rfl⟩ := Prod.mk.inj (pure_ok.mp h)
      exact .padded he fun hr' => absurd hr' hr
  · rename_i he
    obtain ⟨rfl, rfl⟩ := Prod.mk.inj (pure_ok.mp h)
    exact .sent he
  · rename_i he
    obtain ⟨rfl, rfl⟩ := Prod.mk.inj (pure_ok.mp h)
    exact .received he
  · rename_i h1 h2 h3 h4
    obtain ⟨rfl, rfl⟩ := Prod.mk.inj (pure_ok.mp h)
    exact .apart ⟨h1, h2, h3, h4⟩

/-- Whether one of the limits of the settings is reached. -/
def LimitReached (args : SimulatorArgs G) (w : Sim R G) : Prop :=
  (args.maxTraceLength > 0 ∧ w.trace.length ≥ args.maxTraceLength) ∨
    (args.maxSimIterations > 0 ∧ w.simIterations ≥ args.maxSimIterations)

/-- What the body of the main loop does, up to the count of iterations. -/
structure Iterates [RngCore R] (args : SimulatorArgs G) (w : Sim R G) (next : SimEvent)
    (w' : Sim R G) : Prop where
  forward : w.currentTime ≤ next.time
  body : ∃ activity w1 w2, Sends { w with currentTime := next.time } next activity w1 ∧
    w1.triggerUpdate next = .ok w2 ∧
    ∃ n, w' = { (w2.record args next activity).note (.processed next) with simIterations := n }

theorem iterate_ok [RngCore R] {args : SimulatorArgs G} {w w' : Sim R G} {next : SimEvent}
    {stop : Bool} (h : w.iterate args next = .ok (stop, w')) :
    Iterates args w next w' ∧ (stop = true ↔ LimitReached args w' ∨
      (args.continueAfterAllNormalPacketsProcessed = false ∧ w'.sq.noNormalPackets = true)) := by
  unfold iterate at h
  split at h
  · exact absurd h (by simp)
  rename_i htime
  simp only [bind_ok] at h
  obtain ⟨⟨activity, w1⟩, hnet, w2, htrig, h⟩ := h
  have hbody (n : Nat) (hw : w' = { (w2.record args next activity).note (.processed next) with
      simIterations := n }) : Iterates args w next w' :=
    ⟨by lia, activity, w1, w2, simNetworkStack_ok hnet, htrig, n, hw⟩
  split at h
  · rename_i hlimit
    obtain ⟨rfl, rfl⟩ := Prod.mk.inj (pure_ok.mp h)
    exact ⟨hbody _ rfl, iff_of_true rfl (.inl (.inl hlimit))⟩
  rename_i hlimit
  split at h
  · rename_i hiter
    obtain ⟨rfl, rfl⟩ := Prod.mk.inj (pure_ok.mp h)
    exact ⟨hbody _ rfl, iff_of_true rfl (.inl (.inr hiter))⟩
  rename_i hiter
  split at h
  · rename_i hdone
    obtain ⟨rfl, rfl⟩ := Prod.mk.inj (pure_ok.mp h)
    exact ⟨hbody _ rfl, iff_of_true rfl (.inr (by simpa using hdone))⟩
  · rename_i hdone
    obtain ⟨rfl, rfl⟩ := Prod.mk.inj (pure_ok.mp h)
    refine ⟨hbody _ rfl, iff_of_false (by simp) ?_⟩
    rintro ((h | h) | h)
    · exact hlimit h
    · exact hiter h
    · exact hdone (by simpa using h)

end Maybenot.Sim

import Maybenot.Proofs.Deadlines

namespace Maybenot
open Lib

variable {R G : Type}

/-- An action that is scheduled for a time, not one that is done at once. -/
def TriggerAction.Timed : TriggerAction D → Prop
  | .sendPadding .. | .blockOutgoing .. => True
  | .cancel .. | .updateTimer .. => False

/-- A side has places for what its framework asks for, and only timed actions in them. -/
structure Sound (s : SimState R G) : Prop where
  framework : s.framework.WellFormed
  sent : s.framework.Sent
  actions : s.scheduledAction.length = s.framework.actions.length
  timers : s.scheduledInternalTimer.length = s.framework.actions.length
  timed : ∀ a, some a ∈ s.scheduledAction → a.action.Timed

/-- A side stays sound where only timed actions are scheduled. -/
theorem Sound.schedule {s s' : SimState R G} (h : Sound s) (hf : s'.framework = s.framework)
    (hlen : s'.scheduledAction.length = s.scheduledAction.length ∧
      s'.scheduledInternalTimer.length = s.scheduledInternalTimer.length)
    (hmem : ∀ a, some a ∈ s'.scheduledAction → some a ∈ s.scheduledAction ∨ a.action.Timed) :
    Sound s' where
  framework := hf ▸ h.framework
  sent := hf ▸ h.sent
  actions := by rw [hlen.1, hf, h.actions]
  timers := by rw [hlen.2, hf, h.timers]
  timed a ha := (hmem a ha).elim (h.timed a) id

namespace Sim

section Take

theorem takeFirst_of {p : α → Bool} {xs : List (Option α)} {a : α} (ha : some a ∈ xs)
    (hp : p a = true) : ∃ r, takeFirst p xs = some r := by
  induction xs with
  | nil => exact absurd ha (by simp)
  | cons x xs ih =>
    cases x with
    | none =>
      rcases List.mem_cons.mp ha with h | h
      · exact absurd h (by simp)
      · obtain ⟨r, hr⟩ := ih h
        exact ⟨_, by rw [takeFirst, hr]; rfl⟩
    | some x =>
      rw [takeFirst]
      by_cases hx : p x = true
      · exact ⟨_, if_pos hx⟩
      · rw [if_neg hx]
        rcases List.mem_cons.mp ha with h | h
        · obtain rfl := Option.some.inj h
          exact absurd hp hx
        · obtain ⟨r, hr⟩ := ih h
          exact ⟨_, by rw [hr]; rfl⟩

theorem takeFirst_length {p : α → Bool} {xs ys : List (Option α)} {i : Nat} {a : α}
    (h : takeFirst p xs = some (i, a, ys)) : ys.length = xs.length := by
  induction xs generalizing i ys with
  | nil => exact absurd h (by simp [takeFirst])
  | cons x xs ih =>
    rcases takeFirst_cons h with ⟨_, _, _, rfl⟩ | ⟨j, zs, _, rfl, hrest⟩
    · rfl
    · simp [ih hrest]

/-- What is due on one of the sides is taken. -/
theorem takeDue_of {t : α → Instant} {u : Instant} {f : SimState R G → List (Option α)}
    {w : Sim R G} {c : Bool} {a : α} (ha : some a ∈ f (w.side c)) (ht : t a = u) :
    ∃ r, takeDue t u (f w.client) (f w.server) = some r := by
  have hp : (t a == u) = true := by simpa using ht
  unfold takeDue
  cases hc : takeFirst (fun a => t a == u) (f w.client) with
  | some r => exact ⟨_, rfl⟩
  | none =>
    cases c with
    | true =>
      obtain ⟨r, hr⟩ := takeFirst_of (p := fun a => t a == u) ha hp
      exact absurd (hc.symm.trans hr) (by simp)
    | false =>
      obtain ⟨r, hr⟩ := takeFirst_of (p := fun a => t a == u) ha hp
      exact ⟨_, by rw [show takeFirst _ (f w.server) = some r from hr]; rfl⟩

theorem takeDue_length {time : α → Instant} {target : Instant}
    {f : SimState R G → List (Option α)} {w : Sim R G} {c : Bool} {i : Nat} {a : α}
    {ys : List (Option α)}
    (h : takeDue time target (f w.client) (f w.server) = some (c, i, a, ys)) :
    ys.length = (f (w.side c)).length := by
  unfold takeDue at h
  split at h
  · rename_i r hr
    obtain ⟨rfl, rfl⟩ := Prod.mk.inj (Option.some.inj h)
    exact takeFirst_length hr
  · obtain ⟨r, hr, heq⟩ := Option.map_eq_some_iff.mp h
    obtain ⟨rfl, rfl⟩ := Prod.mk.inj heq
    exact takeFirst_length hr

end Take

/-- A search of both sides waits for something that is due then. -/
theorem peekEarliest_due {cs ss : List Instant} {cur : Instant} {s : Duration}
    (h : peekEarliest ss cur (peekEarliest cs cur ⊤) = s) :
    cur + s ∈ cs ∨ cur + s ∈ ss := by
  have hdue {t : Instant} (hle : cur ≤ t)
      (hs : (s : Wait) = (Instant.durationSince t cur : Duration)) : cur + s = t := by
    have hs := WithTop.coe_injective hs
    unfold Instant.durationSince at hs
    lia
  rcases (peekEarliest_spec ss cur (peekEarliest cs cur ⊤)).1 with hss | ⟨t, ht, hle, hs⟩
  · rcases (peekEarliest_spec cs cur ⊤).1 with htop | ⟨t, ht, hle, hs⟩
    · exact absurd (h.symm.trans (hss.trans htop)) (by simp)
    · exact .inl (hdue hle (h.symm.trans (hss.trans hs)) ▸ ht)
  · exact .inr (hdue hle (h.symm.trans hs) ▸ ht)

theorem actionWait_due {w : Sim R G} {s : Duration} (h : w.actionWait = s) :
    ∃ c a, some a ∈ (w.side c).scheduledAction ∧ a.time = w.currentTime + s := by
  rcases peekEarliest_due h with ht | ht
  · obtain ⟨a, ha, hs⟩ := List.mem_map.mp ht
    exact ⟨true, a, List.reduceOption_mem_iff.mp ha, hs⟩
  · obtain ⟨a, ha, hs⟩ := List.mem_map.mp ht
    exact ⟨false, a, List.reduceOption_mem_iff.mp ha, hs⟩

theorem timerWait_due {w : Sim R G} {i : Duration} (h : w.timerWait = i) :
    ∃ c, some (w.currentTime + (i : Int)) ∈ (w.side c).scheduledInternalTimer := by
  rcases peekEarliest_due h with ht | ht
  · exact ⟨true, List.reduceOption_mem_iff.mp ht⟩
  · exact ⟨false, List.reduceOption_mem_iff.mp ht⟩

/-- The queue is searched without a fault, and what it shows can be popped. -/
theorem queueWait_total {w : Sim R G} (hwf : w.sq.WellFormed) :
    ∃ q k c, w.queueWait = .ok (q, k, c) ∧
      (q ≠ ⊤ → ∃ e, ((w.sq.side c).heap k).peek = some e) := by
  rcases View.peekQueue_spec (v := w.view) hwf w.otherWait with ⟨h, _⟩ | ⟨c, k, e, h, hhead, _⟩
  · exact ⟨_, _, _, h, absurd rfl⟩
  · exact ⟨_, _, _, h, fun _ => ⟨e, hhead⟩⟩

theorem popQueue_total {w : Sim R G} {k : Queue} {c : Bool} {e : SimEvent} (q : Duration)
    (h : ((w.sq.side c).heap k).peek = some e) : ∃ r, w.popQueue q k c = .ok r := by
  unfold popQueue
  rw [SimQueue.pop_of (w.network.aggregateBaseDelay c) h]
  exact ⟨_, rfl⟩

theorem doInternalTimer_total {w : Sim R G} {i : Duration} (h : w.timerWait = i) :
    ∃ r, w.doInternalTimer (w.currentTime + i) = .ok r := by
  obtain ⟨c, hmem⟩ := timerWait_due h
  obtain ⟨r, hdue⟩ := takeDue_of (f := (·.scheduledInternalTimer)) (t := id)
    (u := w.currentTime + i) hmem rfl
  unfold doInternalTimer
  rw [hdue]
  exact ⟨_, rfl⟩

theorem doScheduledAction_total {w : Sim R G} (hs : ∀ c, Sound (w.side c)) {s : Duration}
    (h : w.actionWait = s) : ∃ r, w.doScheduledAction (w.currentTime + s) = .ok r := by
  obtain ⟨c, a, hmem, htime⟩ := actionWait_due h
  obtain ⟨⟨c1, machine, a1, actions⟩, hdue⟩ :=
    takeDue_of (f := (·.scheduledAction)) (t := (·.time)) hmem htime
  have htimed : a1.action.Timed := (hs c1).timed a1 (takeDue_side hdue).2.1
  unfold doScheduledAction
  rw [hdue]
  dsimp only
  generalize a1.action = action at htimed
  cases action with
  | sendPadding timeout bypass replace machine => exact ⟨_, rfl⟩
  | blockOutgoing timeout duration bypass replace machine => exact ⟨_, rfl⟩
  | cancel machine timer => exact htimed.elim
  | updateTimer duration replace machine => exact htimed.elim

/-- A round of picking fails neither at the queue nor at what is scheduled. -/
theorem pickStep_total {w : Sim R G} (hwf : w.sq.WellFormed) (hs : ∀ c, Sound (w.side c)) :
    ∃ r, w.pickStep = .ok r := by
  obtain ⟨q, k, c, hq, hhead⟩ := queueWait_total hwf
  unfold pickStep
  simp only [hq, ok_bind]
  by_cases hall : w.actionWait = ⊤ ∧ w.timerWait = ⊤ ∧ w.expiryWait.1 = ⊤ ∧ w.delayWait = ⊤ ∧ q = ⊤
  · exact ⟨_, if_pos hall⟩
  rw [if_neg hall]
  by_cases hn : w.delayWait ≤ w.actionWait ∧ w.delayWait ≤ w.timerWait ∧
      w.delayWait ≤ w.expiryWait.1 ∧ w.delayWait ≤ q
  · exact ⟨_, if_pos hn⟩
  rw [if_neg hn]
  by_cases hb : w.expiryWait.1 ≤ w.actionWait ∧ w.expiryWait.1 ≤ w.timerWait ∧ w.expiryWait.1 ≤ q
  · exact ⟨_, if_pos hb⟩
  rw [if_neg hb]
  by_cases hqs : q ≤ w.actionWait ∧ q ≤ w.timerWait
  · rw [if_pos hqs]
    have hne : q ≠ ⊤ := by
      rintro rfl
      exact hb ⟨le_top.trans hqs.1, le_top.trans hqs.2, le_top⟩
    obtain ⟨e, he⟩ := hhead hne
    exact popQueue_total _ he
  rw [if_neg hqs]
  by_cases hi : w.timerWait ≤ w.actionWait
  · rw [if_pos hi]
    have hne : w.timerWait ≠ ⊤ := by
      intro htop
      exact hqs ⟨le_top.trans (htop ▸ hi), htop ▸ le_top⟩
    obtain ⟨i, hi', hi0⟩ := exists_wait hne
    obtain ⟨r, hr⟩ := doInternalTimer_total hi'
    rw [hi0, hr]
    exact ⟨_, rfl⟩
  · rw [if_neg hi]
    have hne : w.actionWait ≠ ⊤ := by
      intro htop
      exact hi (htop ▸ le_top)
    obtain ⟨s, hs', hs0⟩ := exists_wait hne
    obtain ⟨r, hr⟩ := doScheduledAction_total hs hs'
    rw [hs0, hr]
    exact ⟨_, rfl⟩

/-- What a round of picking leaves scheduled is sound. -/
theorem Sound.picks {w w' : Sim R G} {p : Pick} (h : ∀ c, Sound (w.side c)) (hp : Picks w p w')
    (c : Bool) : Sound (w'.side c) := by
  have hset {v : Sim R G} {c1 : Bool} {s : SimState R G}
      (hside : ∀ c, v.side c = if c = c1 then s else w.side c) (hs : Sound s) :
      Sound (v.side c) := by
    rw [hside]
    split
    · exact hs
    · exact h c
  cases hp with
  | nothing => exact h c
  | delayed => exact h c
  | queued => exact h c
  | @expiredLater _ _ _ c1 g b =>
    exact hset (v := w.unblocked b c1 g) (fun c => unblocked_side w b c1 c g)
      ((h c1).schedule rfl ⟨rfl, rfl⟩ fun _ => .inl)
  | @expiredNow _ _ _ c1 g _ b =>
    exact hset (v := w.unblocked b c1 g) (fun c => unblocked_side w b c1 c g)
      ((h c1).schedule rfl ⟨rfl, rfl⟩ fun _ => .inl)
  | @timer _ _ _ c1 machine u timers i hq hi hle hlt hdue =>
    have hlen := takeDue_length (f := (·.scheduledInternalTimer)) hdue
    exact hset (v := w.timerFired c1 timers) (fun c => side_of_setSide w c1 c _)
      ((h c1).schedule rfl ⟨rfl, hlen⟩ fun _ => .inl)
  | @padding _ _ _ c1 _ a actions _ _ _ _ _ g s hq hs hlt hdue ha hd =>
    have hlen := takeDue_length (f := (·.scheduledAction)) hdue
    exact hset (v := w.actionFired c1 actions) (fun c => side_of_setSide w c1 c _)
      ((h c1).schedule rfl ⟨hlen, rfl⟩ fun a ha =>
        .inl ((takeDue_side (f := (·.scheduledAction)) hdue).2.2 a ha))
  | @block _ _ _ c1 _ a actions _ duration bypass replace m _ _ _ g x s hq hs hlt hdue ha hd hd' hx =>
    have hlen := takeDue_length (f := (·.scheduledAction)) hdue
    let step := SimStep.blocked c1 a.time (a.time + duration) bypass replace
    refine hset (v := w.blockFired c1 x g step) (fun c => blockFired_side w c1 c x g step) ?_
    have hkept : x.framework = (w.side c1).framework ∧ x.scheduledAction = actions ∧
        x.scheduledInternalTimer = (w.side c1).scheduledInternalTimer := by
      subst hx
      unfold SimState.block
      split <;> exact ⟨rfl, rfl, rfl⟩
    refine (h c1).schedule hkept.1 ⟨hkept.2.1 ▸ hlen, hkept.2.2 ▸ rfl⟩ ?_
    intro b hb
    exact .inl <| (takeDue_side (f := (·.scheduledAction)) hdue).2.2 b (hkept.2.1 ▸ hb)

theorem setAt_of {xs : List α} {i : Nat} (x : α) (h : i < xs.length) :
    setAt xs i x = .ok (xs.set i x) := if_pos h

/-- Each action of the framework finds its place. -/
theorem applyAction_total {w : Sim R G} {c : Bool} {a : TriggerAction Duration}
    (delay : Duration) (h : ∀ c, Sound (w.side c))
    (hm : a.machine < (w.side c).framework.actions.length) :
    ∃ w', applyAction c delay w a = .ok w' ∧ (∀ c, Sound (w'.side c)) ∧
      (w'.side c).framework = (w.side c).framework := by
  have hset (actions : List (Option ScheduledAction)) {timers : List (Option Instant)}
      (hlen : actions.length = (w.side c).scheduledAction.length ∧
        timers.length = (w.side c).scheduledInternalTimer.length)
      (hmem : ∀ b, some b ∈ actions → some b ∈ (w.side c).scheduledAction ∨ b.action.Timed) :
      (∀ c', Sound ((w.setSide c { w.side c with
        scheduledAction := actions, scheduledInternalTimer := timers }).side c')) ∧
      ((w.setSide c { w.side c with
        scheduledAction := actions, scheduledInternalTimer := timers }).side c).framework =
        (w.side c).framework := by
    refine ⟨fun c' => ?_, by rw [side_setSide]⟩
    rw [side_of_setSide]
    split
    · exact (h c).schedule rfl hlen hmem
    · exact h c'
  have hact : a.machine < (w.side c).scheduledAction.length := (h c).actions ▸ hm
  have htim : a.machine < (w.side c).scheduledInternalTimer.length := (h c).timers ▸ hm
  have hgone (i : Nat) (b : ScheduledAction) (hb : some b ∈ (w.side c).scheduledAction.set i none) :
      some b ∈ (w.side c).scheduledAction ∨ b.action.Timed :=
    .inl ((List.mem_or_eq_of_mem_set hb).resolve_right (by simp))
  cases a with
  | cancel machine timer =>
    cases timer with
    | action =>
      refine ⟨_, (bind_eq (setAt_of none hact)).trans rfl, ?_⟩
      exact hset _ ⟨by simp, rfl⟩ (hgone machine)
    | internal =>
      refine ⟨_, (bind_eq (setAt_of none htim)).trans rfl, ?_⟩
      exact hset _ ⟨rfl, by simp⟩ fun _ => .inl
    | all =>
      refine ⟨_, (bind_eq (setAt_of none hact)).trans ((bind_eq (setAt_of none htim)).trans rfl), ?_⟩
      exact hset _ ⟨by simp, by simp⟩ (hgone machine)
  | sendPadding timeout bypass replace machine | blockOutgoing timeout _ bypass replace machine =>
    refine ⟨_, (bind_eq (setAt_of _ hact)).trans rfl, ?_⟩
    refine hset _ ⟨by simp, rfl⟩ fun b hb => ?_
    rcases List.mem_or_eq_of_mem_set hb with hb | hb
    · exact .inl hb
    · exact .inr (Option.some.inj hb ▸ trivial)
  | updateTimer duration replace machine =>
    obtain ⟨current, hcurrent⟩ : ∃ x, (w.side c).scheduledInternalTimer[machine]? = some x :=
      ⟨_, List.getElem?_eq_getElem htim⟩
    by_cases hreplace : replace ∨ current.getD w.currentTime < w.currentTime + duration
    · refine ⟨_, (bind_eq (Framework.at?_ok.mpr hcurrent)).trans ((if_pos hreplace).trans
        ((bind_eq (setAt_of _ htim)).trans rfl)), ?_⟩
      exact hset (w.side c).scheduledAction ⟨rfl, by simp⟩ fun _ => .inl
    · exact ⟨w, (bind_eq (Framework.at?_ok.mpr hcurrent)).trans (if_neg hreplace), h, rfl⟩

theorem triggerUpdate_total [RngCore R] {w : Sim R G} (h : ∀ c, Sound (w.side c)) (e : SimEvent) :
    ∃ w', w.triggerUpdate e = .ok w' ∧ ∀ c, Sound (w'.side c) := by
  have hown := h e.client
  obtain ⟨actions, f, hcall, hwf, hsent⟩ := Framework.triggerEvents_total hown.framework hown.sent
    [e.event] w.currentTime
  have hlen := (Framework.shape_eq (Framework.triggerEvents_shape hcall)).2.2
  let w1 : Sim R G := { w.setSide e.client { w.side e.client with framework := f } with
    rng := ((w.side e.client).triggerDelay w.rng).2 }
  have hside (c : Bool) : w1.side c =
      if c = e.client then { w.side e.client with framework := f } else w.side c := by
    rw [← side_of_setSide]
    cases c <;> rfl
  have hw1 : (∀ c, Sound (w1.side c)) ∧ (w1.side e.client).framework = f := by
    refine ⟨fun c => ?_, by rw [hside, if_pos rfl]⟩
    rw [hside]
    split
    · exact ⟨hwf, hsent, hown.actions.trans hlen.symm, hown.timers.trans hlen.symm, hown.timed⟩
    · exact h c
  have hfold : ∃ w', actions.foldlM
      (applyAction e.client ((w.side e.client).triggerDelay w.rng).1) w1 = .ok w' ∧
        (∀ c, Sound (w'.side c)) ∧ (w'.side e.client).framework = f := by
    refine foldlM_total (P := fun w : Sim R G =>
      (∀ c, Sound (w.side c)) ∧ (w.side e.client).framework = f) ?_ hw1
    intro w a ha hw
    have hslot := Framework.returned_slot hcall ha
    have hm := (List.getElem?_eq_some_iff.mp hslot).1
    obtain ⟨w', happly, hsound, hf⟩ := applyAction_total _ hw.1 (hw.2 ▸ hm)
    exact ⟨w', happly, hsound, hf.trans hw.2⟩
  obtain ⟨w', hfold, hw'⟩ := hfold
  exact ⟨w', (bind_eq hcall).trans hfold, hw'.1⟩

/-- A blocked packet that was seen can be popped. -/
theorem popBlocking_total {sq : SimQueue} {flag c : Bool} {e : SimEvent} {k : Queue}
    (delay : Duration) (hpeek : peekBlocking (sq.side c) flag = (some e, k)) :
    ∃ sq', sq.popBlocking k flag c delay = .ok (some e, sq') := by
  obtain ⟨hhead, hk⟩ := peekBlocking_ok hpeek
  unfold SimQueue.popBlocking
  cases flag with
  | true =>
    obtain rfl : k = .blocking := hk.resolve_right (by simp)
    refine ⟨sq.popped .blocking c, ?_⟩
    have hpop : (sq.side c).blocking.pop.1 = some e := (BinaryHeap.pop_fst _).trans hhead
    simp only [if_true, hpop]
    rfl
  | false =>
    have hne : k ≠ .base := by
      rcases hk with rfl | ⟨_, rfl⟩ <;> simp
    refine ⟨sq.popped k c, (if_neg (by simp)).trans ?_⟩
    rw [SimQueue.pop_of delay hhead, e.moved_of_ne delay hne]

theorem simNetworkStack_total (w : Sim R G) (e : SimEvent) : ∃ r, w.simNetworkStack e = .ok r := by
  have hreplace : ∃ r, w.replacePadding e = .ok r := by
    unfold replacePadding
    dsimp only
    split
    · exact ⟨_, rfl⟩
    · rename_i queued k hpeek
      split
      · split
        · obtain ⟨sq', hpop⟩ :=
            popBlocking_total (w.network.aggregateBaseDelay e.client) hpeek
          rw [hpop]
          exact ⟨_, rfl⟩
        · exact ⟨_, rfl⟩
      · exact ⟨_, rfl⟩
  unfold simNetworkStack
  split
  · exact ⟨_, rfl⟩
  · split
    · obtain ⟨r, hr⟩ := hreplace
      rw [hr]
      cases r <;> exact ⟨_, rfl⟩
    · exact ⟨_, rfl⟩
  · exact ⟨_, rfl⟩
  · exact ⟨_, rfl⟩
  · exact ⟨_, rfl⟩

/-- An iteration on an event that is not past does not fail. -/
theorem iterate_total [RngCore R] (args : SimulatorArgs G) {w : Sim R G} {e : SimEvent}
    (h : ∀ c, Sound (w.side c)) (htime : w.currentTime ≤ e.time) :
    ∃ stop w', w.iterate args e = .ok (stop, w') ∧ ∀ c, Sound (w'.side c) := by
  obtain ⟨⟨activity, w1⟩, hnet⟩ := simNetworkStack_total { w with currentTime := e.time } e
  have hside (c : Bool) : w1.side c = w.side c := by
    rw [sends_side (simNetworkStack_ok hnet) c]
    cases c <;> rfl
  obtain ⟨w2, htrig, hw2⟩ := triggerUpdate_total (w := w1) (fun c => hside c ▸ h c) e
  have hrecord (c : Bool) : Sound ((w2.record args e activity).side c) :=
    (w2.record_side args e activity c).1 ▸ hw2 c
  unfold iterate
  rw [if_neg (by lia)]
  simp only [hnet, htrig, ok_bind]
  split
  · exact ⟨_, _, rfl, hrecord⟩
  · split
    · exact ⟨_, _, rfl, hrecord⟩
    · split
      · exact ⟨_, _, rfl, hrecord⟩
      · exact ⟨_, _, rfl, hrecord⟩

/-- A side is sound at the start. -/
theorem new_sound [RngCore R] {machines : List Machine} {now : Instant} {padding blocking : F64}
    {integration : Option (Integration G)} {rng : R} {s : SimState R G}
    (h : SimState.new machines now padding blocking integration rng = .ok s) : Sound s := by
  simp only [SimState.new, bind_ok] at h
  obtain ⟨r, hr, h⟩ := h
  cases r with
  | error e => exact absurd h (by simp)
  | ok f =>
    obtain rfl := pure_ok.mp h
    obtain ⟨hwf, hsent, hm⟩ := Framework.new_wellFormed hr
    have hlen : (List.replicate machines.length (none : Option ScheduledAction)).length =
        f.actions.length := by
      rw [List.length_replicate, hwf.actions, hm]
    refine ⟨hwf, hsent, hlen, by simpa using hlen, fun a ha => ?_⟩
    exact absurd (List.eq_of_mem_replicate ha) (by simp)

end Sim

namespace Config
open Sim

variable [RngCore R]

theorem next_total (args : SimulatorArgs G) {cfg : Config R G}
    (h : ∀ c, Sound (cfg.sim.side c)) (hwf : cfg.sim.sq.WellFormed)
    (hnow : cfg.sim.currentTime ≤ cfg.now) :
    ∃ cfg', cfg.next args = .ok cfg' ∧ ∀ c, Sound (cfg'.sim.side c) := by
  cases cfg with
  | picking w =>
    obtain ⟨⟨p, w'⟩, hp⟩ := pickStep_total hwf h
    have hsound := Sound.picks h (pickStep_ok hp)
    cases p with
    | again => exact ⟨_, (bind_eq hp).trans rfl, hsound⟩
    | found e =>
      cases e with
      | none => exact ⟨_, (bind_eq hp).trans rfl, hsound⟩
      | some e => exact ⟨_, (bind_eq hp).trans rfl, hsound⟩
  | returned e w =>
    obtain ⟨stop, w', hit, hsound⟩ := iterate_total args h hnow
    refine ⟨_, (bind_eq hit).trans rfl, ?_⟩
    cases stop <;> exact hsound
  | done w => exact ⟨_, rfl, h⟩

theorem reachable_sound {args : SimulatorArgs G} {sq : SimQueue} (hsq : sq.WellFormed)
    {cfg : Config R G} (h : Reachable args sq cfg) (c : Bool) : Sound (cfg.sim.side c) := by
  have hall : ∀ c, Sound (cfg.sim.side c) := by
    refine h.invariant_of (P := fun cfg => ∀ c, Sound (cfg.sim.side c)) ?_ ?_
    · rintro cfg ⟨_, _, _, _, _, w, hstart, rfl⟩ c
      obtain ⟨_, hclient, hserver, _⟩ := start_ok hstart
      cases c with
      | false => exact new_sound hserver
      | true => exact new_sound hclient
    · intro cfg cfg' hr hsound hstep
      obtain ⟨cfg1, hnext, hsound'⟩ := next_total args hsound (reachable_wellFormed hr hsq)
        (run_ahead hsq hr).1
      rw [hstep.2] at hnext
      exact Except.ok.inj hnext ▸ hsound'
  exact hall c

/-- All that a run can fail for is that it is cut short. -/
theorem run_fault {args : SimulatorArgs G} {sq : SimQueue} (hsq : sq.WellFormed) {fuel : Nat}
    {cfg : Config R G} (hr : Reachable args sq cfg) {fault : Fault}
    (h : cfg.run args fuel = .error fault) : fault = .outOfFuel := by
  have hdone {w : Sim R G} {n : Nat} (h : (Config.done w).run args n = .error fault) :
      fault = .outOfFuel := by
    cases n <;> exact absurd h (by simp [run, pure, Except.pure])
  induction fuel generalizing cfg with
  | zero =>
    cases cfg with
    | done w => exact hdone h
    | picking w => exact (Except.error.inj h).symm
    | returned e w => exact (Except.error.inj h).symm
  | succ n ih =>
    obtain ⟨cfg', hnext, _⟩ := next_total args (reachable_sound hsq hr)
      (reachable_wellFormed hr hsq) (run_ahead hsq hr).1
    have hstep := Reach.next hr ⟨trivial, hnext⟩
    cases cfg with
    | done w => exact hdone h
    | picking w => exact ih hstep ((bind_eq hnext).symm.trans h)
    | returned e w => exact ih hstep ((bind_eq hnext).symm.trans h)

end Config

/-- The fractions that the two frameworks are given. -/
def SimulatorArgs.fractions (args : SimulatorArgs G) : List F64 :=
  [args.maxPaddingFracClient, args.maxBlockingFracClient, args.maxPaddingFracServer,
    args.maxBlockingFracServer]

namespace Sim

variable [RngCore R]

theorem new_fault {machines : List Machine} {now : Instant} {padding blocking : F64}
    {integration : Option (Integration G)} {rng : R} {fault : Fault}
    (hm : ∀ m ∈ machines, m.validate R = .ok ())
    (h : SimState.new machines now padding blocking integration rng = .error fault) :
    fault = .unwrapError ∧ ∃ x ∈ [padding, blocking], Framework.isFraction x = false := by
  have hrefused {x : F64} (hx : x ∈ [padding, blocking]) (hf : Framework.isFraction x = false)
      {e : Error} (hnew : Framework.new machines padding blocking now rng =
        (.ok (.error e) : Exec (Except Error (Framework R Instant Duration)))) :
      fault = .unwrapError ∧ ∃ x ∈ [padding, blocking], Framework.isFraction x = false := by
    unfold SimState.new at h
    rw [bind_eq hnew] at h
    exact ⟨(Except.error.inj h).symm, x, hx, hf⟩
  cases hp : Framework.isFraction padding with
  | false => exact hrefused (by simp) hp (e := .paddingLimit) (by simp [Framework.new, hp])
  | true =>
    cases hb : Framework.isFraction blocking with
    | false =>
      exact hrefused (by simp) hb (e := .blockingLimit) (by simp [Framework.new, hp, hb])
    | true =>
      obtain ⟨f, hf⟩ := Framework.new_total (D := Duration) hp hb hm now rng
      unfold SimState.new at h
      rw [bind_eq hf] at h
      exact absurd h (by simp [pure, Except.pure])

theorem start_fault {machinesClient machinesServer : List Machine} {sq : SimQueue}
    {args : SimulatorArgs G} {rngClient rngServer : R} {rng : G} {fault : Fault}
    {c : Bool} {e : SimEvent} (he : e ∈ (sq.side c).base.items)
    (hpps : ∀ p, args.network.pps.or sq.maxPps = some p → 0 < p ∧ p < 2 ^ 32)
    (hclient : ∀ m ∈ machinesClient, m.validate R = .ok ())
    (hserver : ∀ m ∈ machinesServer, m.validate R = .ok ())
    (h : Sim.start machinesClient machinesServer sq args rngClient rngServer rng =
      .error fault) :
    fault = .unwrapError ∧ ∃ x ∈ args.fractions, Framework.isFraction x = false := by
  have hfirst : ∃ t, sq.getFirstTime = some t := by
    have hpeek : (sq.side c).base.peek ≠ none := by
      intro hnone
      rw [BinaryHeap.peek_none.mp hnone] at he
      exact absurd he (Multiset.notMem_zero e)
    obtain ⟨x, hx⟩ := Option.ne_none_iff_exists'.mp hpeek
    unfold SimQueue.getFirstTime EventQueue.getFirstBaseTime
    cases c with
    | true =>
      rw [show sq.client.base.peek = some x from hx]
      cases sq.server.base.peek <;> exact ⟨_, rfl⟩
    | false =>
      rw [show sq.server.base.peek = some x from hx]
      cases sq.client.base.peek <;> exact ⟨_, rfl⟩
  have hnetwork : ∃ n, NetworkBottleneck.new args.network (Duration.fromMillis 1000) sq.maxPps =
      .ok n := by
    have hlimit : asU32 (args.network.pps.getD (sq.maxPps.getD usizeMax)) ≠ 0 := by
      have hof {p : Nat} (hp : 0 < p ∧ p < 2 ^ 32) : asU32 p ≠ 0 := by
        unfold asU32
        rw [Nat.mod_eq_of_lt hp.2]
        exact hp.1.ne'
      cases hn : args.network.pps with
      | some p => exact hof (hpps p (by rw [hn]; rfl))
      | none =>
        cases hq : sq.maxPps with
        | some p => exact hof (hpps p (by rw [hn, hq]; rfl))
        | none => decide
    exact ⟨_, if_neg hlimit⟩
  have hwider {x y : F64} (hx : ∃ z ∈ [x, y], Framework.isFraction z = false)
      (hxy : [x, y] ⊆ args.fractions) : ∃ z ∈ args.fractions, Framework.isFraction z = false := by
    obtain ⟨z, hz, hf⟩ := hx
    exact ⟨z, hxy hz, hf⟩
  obtain ⟨t, ht⟩ := hfirst
  obtain ⟨n, hn⟩ := hnetwork
  unfold Sim.start at h
  rw [bind_eq (unwrap_ok.mpr ht)] at h
  cases hc : SimState.new (G := G) machinesClient t args.maxPaddingFracClient
      args.maxBlockingFracClient args.clientIntegration rngClient with
  | error f =>
    rw [hc] at h
    obtain rfl := Except.error.inj h
    obtain ⟨rfl, hx⟩ := new_fault hclient hc
    exact ⟨rfl, hwider hx (by simp [SimulatorArgs.fractions])⟩
  | ok client =>
    rw [bind_eq hc] at h
    cases hs : SimState.new (G := G) machinesServer t args.maxPaddingFracServer
        args.maxBlockingFracServer args.serverIntegration rngServer with
    | error f =>
      rw [hs] at h
      obtain rfl := Except.error.inj h
      obtain ⟨rfl, hx⟩ := new_fault hserver hs
      exact ⟨rfl, hwider hx (by simp [SimulatorArgs.fractions])⟩
    | ok server =>
      rw [bind_eq hs, bind_eq hn] at h
      exact absurd h (by simp [pure, Except.pure])

/-- The simulator starts where the fractions are valid. -/
theorem start_total {machinesClient machinesServer : List Machine} {sq : SimQueue}
    {args : SimulatorArgs G} (rngClient rngServer : R) (rng : G)
    {c : Bool} {e : SimEvent} (he : e ∈ (sq.side c).base.items)
    (hpps : ∀ p, args.network.pps.or sq.maxPps = some p → 0 < p ∧ p < 2 ^ 32)
    (hclient : ∀ m ∈ machinesClient, m.validate R = .ok ())
    (hserver : ∀ m ∈ machinesServer, m.validate R = .ok ())
    (hfractions : ∀ x ∈ args.fractions, Framework.isFraction x = true) :
    ∃ w, Sim.start machinesClient machinesServer sq args rngClient rngServer rng = .ok w := by
  cases hstart : Sim.start machinesClient machinesServer sq args rngClient rngServer rng with
  | ok w => exact ⟨w, rfl⟩
  | error fault =>
    obtain ⟨_, x, hx, hbad⟩ := start_fault he hpps hclient hserver hstart
    exact absurd (hfractions x hx) (by simp [hbad])

end Sim

open Sim in
/-- A run on a trace that is not empty, with valid machines and a limit of packets that a
`u32` can divide by, fails at most for a fraction that is none: no event is past when it is
picked, and whatever is waited for is there. -/
theorem simulator_faultless [RngCore R] {machinesClient machinesServer : List Machine}
    {sq : SimQueue} {args : SimulatorArgs G} {rngClient rngServer : R} {rng : G} {fuel : Nat}
    {fault : Fault} (hsq : sq.BaseTrace) {c : Bool} {e : SimEvent}
    (he : e ∈ (sq.side c).base.items)
    (hpps : ∀ p, args.network.pps.or sq.maxPps = some p → 0 < p ∧ p < 2 ^ 32)
    (hclient : ∀ m ∈ machinesClient, m.validate R = .ok ())
    (hserver : ∀ m ∈ machinesServer, m.validate R = .ok ())
    (h : simAdvanced machinesClient machinesServer sq args rngClient rngServer rng fuel =
      .error fault) :
    fault = .outOfFuel ∨
      (fault = .unwrapError ∧ ∃ x ∈ args.fractions, Framework.isFraction x = false) := by
  unfold simAdvanced at h
  cases hstart : Sim.start machinesClient machinesServer sq args rngClient rngServer rng with
  | error fault' =>
    rw [hstart] at h
    obtain rfl := Except.error.inj h
    exact .inr (start_fault he hpps hclient hserver hstart)
  | ok w =>
    rw [bind_eq hstart] at h
    have hreach : Config.Reachable args sq (.picking w) :=
      .start ⟨_, _, _, _, _, w, hstart, rfl⟩
    cases hrun : (Config.picking w).run args fuel with
    | error fault' =>
      rw [hrun] at h
      obtain rfl := Except.error.inj h
      exact .inl (Config.run_fault hsq.built.wellFormed hreach hrun)
    | ok w' =>
      rw [bind_eq hrun] at h
      exact absurd h (by simp [pure, Except.pure])

/-- A run with a blocking client that is cut short after six steps. -/
theorem short_run_faultless : ∃ fault, simAdvanced [Config.blocker 5] [] Config.oneSent
      (.new ⟨10, none⟩ 0 true : SimulatorArgs Unit) () () () 6 = .error fault ∧
    (fault = .outOfFuel ∨ (fault = .unwrapError ∧
      ∃ x ∈ (.new ⟨10, none⟩ 0 true : SimulatorArgs Unit).fractions,
        Framework.isFraction x = false)) := by
  have hrun : (match simAdvanced [Config.blocker 5] [] Config.oneSent
      (.new ⟨10, none⟩ 0 true : SimulatorArgs Unit) () () () 6 with
    | .error fault => some fault
    | .ok _ => none) = some .outOfFuel := by decide +kernel
  have hclient : ∀ m ∈ [Config.blocker 5], m.validate Unit = .ok () := by decide +kernel
  split at hrun
  · rename_i fault h
    obtain rfl := Option.some.inj hrun
    refine ⟨_, h, ?_⟩
    have hmem : (⟨.normalSent, 0, 0, true, false, false, false⟩ : SimEvent) ∈
        (Config.oneSent.side true).base.items := by decide +kernel
    exact simulator_faultless (.push .new ..) hmem (by decide) hclient (by simp) h
  · exact absurd hrun (by simp)

end Maybenot

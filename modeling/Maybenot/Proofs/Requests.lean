import Maybenot.Proofs.Actions

namespace Maybenot
open Lib

variable {R G : Type}

/-- No blocking of the machine lets packets bypass it. -/
def Machine.Tight (m : Machine) : Prop :=
  ∀ st ∈ m.states, ∀ replace timeout duration limit,
    st.action ≠ some (.blockOutgoing true replace timeout duration limit)

/-- The action begins no blocking that packets bypass. -/
def TriggerAction.Tight : TriggerAction D → Prop
  | .blockOutgoing _ _ bypass _ _ => bypass = false
  | .cancel .. | .sendPadding .. | .updateTimer .. => True

/-- Tight machines ask for no blocking that packets bypass. -/
theorem Framework.returned_tight {T D : Type} [RngCore R] [Time.Duration D] [Time.Instant T D]
    {f f' : Framework R T D} (hwf : f.WellFormed) (htight : ∀ m ∈ f.machines, m.Tight)
    {e : TriggerEvent} {now : T} {actions : List (TriggerAction D)} {a : TriggerAction D}
    (h : f.triggerEvents [e] now = .ok (actions, f')) (ha : a ∈ actions) : a.Tight := by
  have hslot := returned_slot h ha
  obtain ⟨hmachines, _, hlen⟩ := shape_eq (triggerEvents_shape h)
  have hmi : a.machine < f.actions.length := hlen ▸ (List.getElem?_eq_some_iff.mp hslot).1
  obtain ⟨rt, hrt⟩ := exists_getElem? (show a.machine < f.runtime.length by
    rw [hwf.runtime, ← hwf.actions]
    exact hmi)
  obtain ⟨rt', m, st, act, rng, _, hm, hst, hact, _, hasks⟩ := (call_admits hrt hmi h).slot a hslot
  rw [hasks]
  have hmem : m ∈ f.machines := hmachines ▸ List.mem_of_getElem? hm
  cases act with
  | cancel | sendPadding | updateTimer => trivial
  | blockOutgoing bypass replace timeout duration limit =>
    cases bypass with
    | false => rfl
    | true => exact absurd hact (htight m hmem st (List.mem_of_getElem? hst) _ _ _ _)

namespace Sim

/-- No blocking lets packets bypass it, and none that is scheduled does. -/
structure Barred (w : Sim R G) : Prop where
  blocking : ∀ c, (w.side c).blockingBypassable = false
  scheduled : ∀ c a, some a ∈ (w.side c).scheduledAction → a.action.Tight

/-- A side with other actions, none of them new. -/
theorem Barred.set {w w' : Sim R G} {c : Bool} {s : SimState R G} (h : w.Barred)
    (hside : ∀ c', w'.side c' = if c' = c then s else w.side c')
    (hb : s.blockingBypassable = false)
    (ha : ∀ a, some a ∈ s.scheduledAction → some a ∈ (w.side c).scheduledAction ∨ a.action.Tight) :
    w'.Barred := by
  constructor
  · intro c'
    rw [hside]
    split
    · exact hb
    · exact h.blocking c'
  · intro c' a hmem
    rw [hside] at hmem
    split at hmem
    · exact (ha a hmem).elim (h.scheduled c a) id
    · exact h.scheduled c' a hmem

theorem Barred.pushSim {w : Sim R G} (h : w.Barred) (e : SimEvent) : (w.pushSim e).Barred :=
  ⟨h.blocking, h.scheduled⟩

theorem Barred.picks {w w' : Sim R G} {p : Pick} (h : w.Barred) (hp : Picks w p w') :
    w'.Barred := by
  cases hp with
  | nothing => exact h
  | delayed => exact ⟨h.blocking, h.scheduled⟩
  | @expiredLater _ _ _ c g b delay =>
    exact (h.set (fun c' => unblocked_side w b c c' g) (h.blocking c) fun _ => .inl).pushSim _
  | @expiredNow _ _ _ c g next b =>
    have hset : (w.unblocked b c g).Barred :=
      h.set (fun c' => unblocked_side w b c c' g) (h.blocking c) fun _ => .inl
    exact ⟨hset.blocking, hset.scheduled⟩
  | queued => exact ⟨h.blocking, h.scheduled⟩
  | @timer _ _ _ c m u timers i hq hi hle hlt hdue =>
    have hset : (w.timerFired c timers).Barred :=
      h.set (fun c' => side_of_setSide w c c' _) (h.blocking c) fun _ => .inl
    exact hset.pushSim _
  | @padding _ _ _ c mi a actions timeout bypass replace m delay g s hq hs hlt hdue ha hd =>
    obtain ⟨_, _, hall⟩ := takeDue_side (f := (·.scheduledAction)) hdue
    have hset : (w.actionFired c actions).Barred :=
      h.set (fun c' => side_of_setSide w c c' _) (h.blocking c) fun a ha => .inl (hall a ha)
    exact ⟨hset.blocking, hset.scheduled⟩
  | @block _ _ _ c mi a actions timeout duration bypass replace m delay g delay' g' x s hq hs hlt
      hdue ha hd hd' hx =>
    obtain ⟨_, hmem, hall⟩ := takeDue_side (f := (·.scheduledAction)) hdue
    have htight : bypass = false := by
      have hscheduled := h.scheduled c a hmem
      rwa [ha] at hscheduled
    have hkept : x.blockingBypassable = false ∧ x.scheduledAction = actions := by
      subst hx
      unfold SimState.block
      split
      · exact ⟨htight, rfl⟩
      · exact ⟨h.blocking c, rfl⟩
    refine (h.set (fun c' => blockFired_side w c c' x _ _) hkept.1 ?_).pushSim _
    intro b hb
    exact .inl (hall b (hkept.2 ▸ hb))

theorem Barred.iterate [RngCore R] {args : SimulatorArgs G} {w w' : Sim R G} {e : SimEvent}
    {stop : Bool} (h : w.Barred) (hsound : ∀ c, Sound (w.side c))
    (htight : ∀ c, ∀ m ∈ (w.side c).framework.machines, m.Tight)
    (hit : w.iterate args e = .ok (stop, w')) : w'.Barred := by
  constructor
  · intro c
    rw [(iterates_hears (iterate_ok hit).1 c).blockingBypassable]
    exact h.blocking c
  · intro c b hb
    obtain ⟨i, hi⟩ := List.getElem?_of_mem hb
    have hscheduled : w'.scheduled c i = some b := Option.join_eq_some_iff.mpr hi
    by_cases hno : e.client = c → ∀ actions framework,
        (w.side c).framework.triggerEvents [e.event] e.time = .ok (actions, framework) →
          ∀ a ∈ actions, ¬ a.SetsAction i
    · have hsame := congrArg (·.1) (iterate_aside hit hno)
      exact h.scheduled c b (scheduled_mem (hsame.symm.trans hscheduled))
    · push Not at hno
      obtain ⟨rfl, actions, framework, hcall, a, ha, hsets⟩ := hno
      obtain ⟨g, hplan⟩ := iterate_own hit hcall ha hsets
      have hplanned := (congrArg (·.1) hplan).symm.trans hscheduled
      have hatight := Framework.returned_tight (hsound e.client).framework (htight e.client)
        hcall ha
      cases a with
      | cancel | updateTimer => exact absurd hplanned (by simp [TriggerAction.planned])
      | sendPadding | blockOutgoing =>
        obtain rfl := Option.some.inj hplanned
        exact hatight

/-- A wait that is shorter than those for all else is shorter than that for any queued event,
as long as none can bypass a blocking. -/
theorem chosen_lt {w : Sim R G} (hwf : w.sq.WellFormed) (hbarred : w.Barred) {x : Wait}
    {k : Queue} {c : Bool} (hq : w.queueWait = .ok (x, k, c)) {d : Duration} (hx : d < x)
    (hother : d ≤ w.otherWait) {c' : Bool} {j : Queue} {y : SimEvent}
    (hy : y ∈ w.view.items c' j) : d < w.view.wait c' j y := by
  rw [queueWait_eq] at hq
  have hlt : (d : Wait) < w.view.wait c' j y := by
    rcases View.peekQueue_spec (v := w.view) hwf w.otherWait with
      ⟨htop, hlate⟩ | ⟨c1, k1, e, hans, _, _, hall⟩
    · exact hother.trans_lt (hlate c' j y hy)
    · obtain ⟨hwait, _⟩ := Prod.mk.inj (Except.ok.inj (hans.symm.trans hq))
      rw [← hwait] at hx
      refine hx.trans_le (WithTop.coe_le_coe.mpr (hall c' j y hy fun _ hs => ?_))
      exact absurd ((hbarred.blocking c').symm.trans hs.2.1) (by simp)
  exact WithTop.coe_lt_coe.mp hlt

/-- The time left to an event that is to come. -/
def timeLeft (w : Sim R G) (e : SimEvent) : Duration := Instant.durationSince e.time w.currentTime

/-- Padding was sent and is the next thing that happens. -/
structure Imminent (w : Sim R G) (e : SimEvent) (mi : MachineId) : Prop where
  event : e.event = .paddingSent mi
  mem : e ∈ w.view.items e.client .internal
  only : ∀ c m, w.sq.waiting c (.paddingSent m) = if c = e.client ∧ m = mi then {e} else 0
  spent : w.scheduled e.client mi = none
  others : ∀ c k, ∀ y ∈ w.view.items c k, y ≠ e → w.timeLeft e < w.view.wait c k y
  actions : w.timeLeft e ≤ w.actionWait
  timers : w.timeLeft e < w.timerWait
  expiry : w.timeLeft e < w.expiryWait.1
  delays : w.timeLeft e < w.delayWait

/-- No padding is on its way to the framework. -/
def Calm (w : Sim R G) : Prop := ∀ c m, w.sq.waiting c (.paddingSent m) = 0

theorem Imminent.wait {w : Sim R G} {e : SimEvent} {mi : MachineId} (h : w.Imminent e mi) :
    w.view.wait e.client .internal e = w.timeLeft e := by
  have hfree : ¬ w.view.Held e.client e :=
    fun hheld => absurd (h.event.symm.trans hheld.1) (by simp)
  rw [wait_free hfree, e.moved_of_ne _ (by simp)]
  rfl

/-- The search for the next event finds padding that is imminent. -/
theorem Imminent.queue {w : Sim R G} {e : SimEvent} {mi : MachineId} (h : w.Imminent e mi)
    (hwf : w.sq.WellFormed) (hbarred : w.Barred) {q : Wait} {k : Queue} {c : Bool}
    (hq : w.queueWait = .ok (q, k, c)) :
    q = w.timeLeft e ∧ k = .internal ∧ c = e.client ∧ ((w.sq.side c).heap k).peek = some e := by
  rw [queueWait_eq] at hq
  rcases View.peekQueue_spec (v := w.view) hwf w.otherWait with
    ⟨_, hlate⟩ | ⟨c1, k1, y, hans, hhead, _, hall⟩
  · have hlt := hlate e.client .internal e h.mem
    have hle : (w.timeLeft e : Wait) ≤ w.otherWait :=
      le_otherWait h.actions h.timers.le h.expiry.le h.delays.le
    rw [h.wait] at hlt
    exact absurd hlt (not_lt_of_ge hle)
  · have hy : y ∈ w.view.items c1 k1 := BinaryHeap.peek_mem hhead
    have hle := hall e.client .internal e h.mem fun _ hs =>
      absurd ((hbarred.blocking e.client).symm.trans hs.2.1) (by simp)
    rw [h.wait] at hle
    have hsame : y = e := by
      by_contra hne
      exact absurd (h.others c1 k1 y hy hne) (not_lt_of_ge hle)
    subst hsame
    obtain ⟨hhome, hclient⟩ := hwf c1 k1 y hy
    have hinternal : k1 = .internal := by
      rw [← hhome]
      exact TriggerEvent.OfAction.home (.inl h.event)
    obtain ⟨rfl, hrest⟩ := Prod.mk.inj (Except.ok.inj (hans.symm.trans hq))
    obtain ⟨rfl, rfl⟩ := Prod.mk.inj hrest
    subst hclient hinternal
    exact ⟨by rw [h.wait], rfl, rfl, hhead⟩

/-- After the one padding that waited was popped none is left. -/
theorem Imminent.popped {w : Sim R G} {e : SimEvent} {mi : MachineId} (h : w.Imminent e mi)
    (hhead : ((w.sq.side e.client).heap .internal).peek = some e) (c : Bool) (m : MachineId) :
    (w.sq.popped .internal e.client).waiting c (.paddingSent m) = 0 := by
  have hle := w.sq.waiting_popped .internal e.client c (.paddingSent m)
  have honly := h.only c m
  split at honly
  · rename_i hown
    obtain ⟨rfl, rfl⟩ := hown
    have hheap := w.sq.heap_popped .internal .internal e.client e.client
    rw [if_pos ⟨rfl, rfl⟩] at hheap
    change ((w.sq.popped .internal e.client).side e.client).internal = _ at hheap
    have hitems := BinaryHeap.items_pop hhead
    unfold SimQueue.waiting at honly ⊢
    rw [hheap]
    change Multiset.filter _ ((w.sq.side e.client).heap .internal).items = _ at honly
    rw [hitems, Multiset.filter_cons_of_pos (p := fun y : SimEvent => y.event = .paddingSent m) _
      h.event] at honly
    exact (Multiset.cons_eq_cons.mp honly).elim (·.2) fun hne => absurd rfl hne.1
  · rw [honly] at hle
    exact Multiset.le_zero.mp hle

/-- A round of picking takes padding that is imminent. -/
theorem Imminent.picks {w w' : Sim R G} {e : SimEvent} {mi : MachineId} (h : w.Imminent e mi)
    (hwf : w.sq.WellFormed) (hbarred : w.Barred) {p : Pick} (hp : Picks w p w') :
    ∃ next, p = .found (some next) ∧ next.event = .paddingSent mi ∧ next.client = e.client ∧
      w'.Calm ∧ ∀ c m, w'.scheduled c m = w.scheduled c m := by
  cases hp with
  | nothing hq => exact absurd (h.queue hwf hbarred hq).1 (by simp)
  | delayed hq hn =>
    have hle := hn.2.2.2
    rw [(h.queue hwf hbarred hq).1] at hle
    exact absurd h.delays (not_lt_of_ge hle)
  | expiredLater hq hb hle =>
    have hle := hle.2.2
    rw [(h.queue hwf hbarred hq).1] at hle
    have hlt := h.expiry
    rw [hb] at hlt
    exact absurd hlt (not_lt_of_ge hle)
  | expiredNow hq hb hle =>
    have hle := hle.2.2
    rw [(h.queue hwf hbarred hq).1] at hle
    have hlt := h.expiry
    rw [hb] at hlt
    exact absurd hlt (not_lt_of_ge hle)
  | @queued k c y queued next q hq hle hlt hhead hqueued hnext =>
    obtain ⟨_, rfl, rfl, hfirst⟩ := h.queue hwf hbarred hq
    obtain rfl := Option.some.inj (hfirst.symm.trans hhead)
    have hsame := Config.picked_same hqueued hnext
    refine ⟨next, rfl, hsame.1.trans h.event, hsame.2.1, h.popped hhead, ?_⟩
    intro c m
    cases c <;> rfl
  | timer hq hi hle hlt =>
    have hlt' := hlt.1
    rw [(h.queue hwf hbarred hq).1] at hlt'
    exact absurd (h.timers.trans_eq hi) (not_lt_of_gt hlt')
  | padding hq hs hlt =>
    have hlt' := hlt.2.1
    rw [(h.queue hwf hbarred hq).1] at hlt'
    exact absurd (h.actions.trans_eq hs) (not_le_of_gt hlt')
  | block hq hs hlt =>
    have hlt' := hlt.2.1
    rw [(h.queue hwf hbarred hq).1] at hlt'
    exact absurd (h.actions.trans_eq hs) (not_le_of_gt hlt')

/-- Fewer scheduled actions are not due any earlier. -/
theorem actionWait_mono {w w' : Sim R G} (hnow : w'.currentTime = w.currentTime)
    (h : ∀ c a, some a ∈ (w'.side c).scheduledAction → some a ∈ (w.side c).scheduledAction) :
    w.actionWait ≤ w'.actionWait := by
  have hle {c : Bool} {t : Instant}
      (ht : t ∈ (w'.side c).scheduledAction.reduceOption.map (·.time))
      (hcur : w'.currentTime ≤ t) :
      w.actionWait ≤ (Instant.durationSince t w'.currentTime : Duration) := by
    obtain ⟨a, ha, rfl⟩ := List.mem_map.mp ht
    rw [hnow] at hcur ⊢
    exact actionWait_le (h c a (List.reduceOption_mem_iff.mp ha)) hcur
  change w.actionWait ≤ peekEarliest (w'.server.scheduledAction.reduceOption.map (·.time))
    w'.currentTime (peekEarliest (w'.client.scheduledAction.reduceOption.map (·.time))
      w'.currentTime ⊤)
  have hclient : w.actionWait ≤ peekEarliest
      (w'.client.scheduledAction.reduceOption.map (·.time)) w'.currentTime ⊤ := by
    obtain ⟨hfound | ⟨t, ht, hcur, hfound⟩, _⟩ := peekEarliest_spec
      (w'.client.scheduledAction.reduceOption.map (·.time)) w'.currentTime ⊤
    · rw [hfound]
      exact le_top
    · rw [hfound]
      exact hle (c := true) ht hcur
  obtain ⟨hfound | ⟨t, ht, hcur, hfound⟩, _⟩ := peekEarliest_spec
    (w'.server.scheduledAction.reduceOption.map (·.time)) w'.currentTime
    (peekEarliest (w'.client.scheduledAction.reduceOption.map (·.time)) w'.currentTime ⊤)
  · rw [hfound]
    exact hclient
  · rw [hfound]
    exact hle (c := false) ht hcur

/-- Padding whose action fires is imminent. -/
theorem Calm.fires {w : Sim R G} (h : w.Calm) (hwf : w.sq.WellFormed) (hbarred : w.Barred)
    (hplaced : w.Placed) {q : Wait} {k : Queue} {c c' : Bool} {s : Duration} {m mi : MachineId}
    {a : ScheduledAction} {actions : List (Option ScheduledAction)} {e : SimEvent} {g : G}
    (hq : w.queueWait = .ok (q, k, c')) (hs : w.actionWait = s)
    (hlt : s < w.timerWait ∧ s < q ∧ s < w.expiryWait.1 ∧ s < w.delayWait)
    (hdue : takeDue (·.time) (w.currentTime + s) w.client.scheduledAction
      w.server.scheduledAction = some (c, mi, a, actions))
    (hmachine : a.action.machine = m)
    (he : e.event = .paddingSent m ∧ e.client = c ∧ e.time = a.time) :
    Imminent (({ w.actionFired c actions with rng := g }).pushSim e) e m := by
  obtain ⟨hevent, hclient, htime⟩ := he
  subst hclient
  obtain ⟨hget, hactions⟩ := takeDue_at (f := (·.scheduledAction)) hdue
  obtain ⟨hat, _, hfewer⟩ := takeDue_side (f := (·.scheduledAction)) hdue
  have hmi : mi = m :=
    (hplaced e.client mi a (Option.join_eq_some_iff.mpr hget)).symm.trans hmachine
  subst hmi
  let w' := ({ w.actionFired e.client actions with rng := g }).pushSim e
  have hside (c : Bool) : w'.side c =
      if c = e.client then { w.side e.client with scheduledAction := actions } else w.side c :=
    side_of_setSide w e.client c _
  have hrest : w'.currentTime = w.currentTime ∧ w'.network = w.network := by
    constructor
    · exact congrArg (·.2.1) (setSide_rest w e.client _)
    · exact setSide_network w e.client _
  have hsq : w'.sq = w.sq.pushSim e := congrArg (·.pushSim e) (setSide_sq w e.client _)
  have hhome : e.home = .internal := TriggerEvent.OfAction.home (.inl hevent)
  have hleft : w'.timeLeft e = s := by
    unfold timeLeft Instant.durationSince
    rw [htime, hrest.1]
    change a.time = _ at hat
    lia
  have hkept (c : Bool) : (w'.side c).blockingUntil = (w.side c).blockingUntil ∧
      (w'.side c).blockingBypassable = (w.side c).blockingBypassable ∧
      (w'.side c).scheduledInternalTimer = (w.side c).scheduledInternalTimer := by
    rw [hside]
    split
    · rename_i hc
      rw [hc]
      exact ⟨rfl, rfl, rfl⟩
    · exact ⟨rfl, rfl, rfl⟩
  have hwait (c : Bool) (k : Queue) (y : SimEvent) : w'.view.wait c k y = w.view.wait c k y := by
    have hheld : w'.view.Held c y ↔ w.view.Held c y := by
      unfold View.Held
      rw [view_side, view_side, (hkept c).1, (hkept c).2.1]
    unfold View.wait View.release
    rw [view_side, view_side, (hkept c).1]
    simp only [hheld]
    change Instant.durationSince (if k = .base then y.time + w'.network.aggregateBaseDelay c
      else _) w'.currentTime = _
    rw [hrest.1, hrest.2]
    rfl
  have hwaiting (c : Bool) (m' : MachineId) : w'.sq.waiting c (.paddingSent m') =
      if c = e.client ∧ m' = mi then {e} else 0 := by
    rw [hsq]
    by_cases hown : c = e.client ∧ m' = mi
    · obtain ⟨rfl, rfl⟩ := hown
      have hpushed := SimQueue.waiting_internal hhome w.sq
      rw [hevent, h e.client m'] at hpushed
      rw [if_pos ⟨rfl, rfl⟩, hpushed]
      rfl
    · rw [if_neg hown, ← h c m']
      apply SimQueue.waiting_other
      intro hsame hc
      rw [hevent] at hsame
      exact hown ⟨hc.symm, (TriggerEvent.paddingSent.inj hsame).symm⟩
  have hother : (s : Wait) ≤ w.otherWait := le_otherWait hs.ge hlt.1.le hlt.2.2.1.le hlt.2.2.2.le
  constructor
  · exact hevent
  · change e ∈ ((w'.sq.side e.client).heap .internal).items
    rw [hsq]
    exact SimQueue.mem_pushSim.mpr (.inl ⟨rfl, rfl, hhome.symm⟩)
  · exact hwaiting
  · have hlen : mi < (w.side e.client).scheduledAction.length :=
      (List.getElem?_eq_some_iff.mp hget).1
    change w'.scheduled e.client mi = none
    unfold scheduled
    rw [hside, if_pos rfl]
    change actions[mi]?.join = none
    rw [hactions, List.getElem?_set_self hlen]
    rfl
  · intro c k y hy hne
    rw [hwait, hleft]
    change y ∈ ((w'.sq.side c).heap k).items at hy
    rw [hsq] at hy
    rcases SimQueue.mem_pushSim.mp hy with ⟨hy, _⟩ | hy
    · exact absurd hy hne
    · exact chosen_lt hwf hbarred hq hlt.2.1 hother hy
  · rw [hleft, ← hs]
    refine actionWait_mono hrest.1 fun c b hb => ?_
    change some b ∈ (w'.side c).scheduledAction at hb
    rw [hside] at hb
    split at hb
    · rename_i hc
      rw [hc]
      exact hfewer b hb
    · exact hb
  · rw [hleft]
    have htimer : w'.timerWait = w.timerWait := by
      change peekScheduledInternalTimer (w'.side true).scheduledInternalTimer
        (w'.side false).scheduledInternalTimer w'.currentTime = _
      rw [(hkept true).2.2, (hkept false).2.2, hrest.1]
      rfl
    exact hlt.1.trans_eq htimer.symm
  · rw [hleft]
    have hexpiry : w'.expiryWait = w.expiryWait := by
      change peekBlockedExp (w'.side true).blockingUntil (w'.side false).blockingUntil
        w'.currentTime = _
      rw [(hkept true).1, (hkept false).1, hrest.1]
      rfl
    exact hlt.2.2.1.trans_eq (congrArg (·.1) hexpiry.symm)
  · rw [hleft]
    have hdelay : w'.delayWait = w.delayWait := by
      unfold delayWait
      rw [hrest.1, hrest.2]
    exact hlt.2.2.2.trans_eq hdelay.symm

/-- A round of picking where no padding is on its way: none is afterwards, or an action has
fired and its padding is imminent. -/
theorem Calm.picks {w w' : Sim R G} {p : Pick} (h : w.Calm) (hwf : w.sq.WellFormed)
    (hbarred : w.Barred) (hplaced : w.Placed) (hp : Picks w p w') :
    (w'.Calm ∧ ∀ next, p = .found (some next) → ∀ m, next.event ≠ .paddingSent m) ∨
      p = .again ∧ ∃ e m, Imminent w' e m ∧
        ∃ a, w.scheduled e.client m = some a ∧ a.action.isPadding = true := by
  have hpush {v : Sim R G} {e : SimEvent} (hsq : v.sq = w.sq)
      (he : ∀ m, e.event ≠ .paddingSent m) : (v.pushSim e).Calm := by
    intro c m
    rw [← h c m, ← hsq]
    exact SimQueue.waiting_other fun hsame => absurd hsame (he m)
  cases hp with
  | nothing => exact .inl ⟨h, by simp⟩
  | delayed => exact .inl ⟨h, by simp⟩
  | @expiredLater _ _ _ c g b delay =>
    exact .inl ⟨hpush (v := w.unblocked b c g) (setSide_sq w c _) (by simp [blockingEnded]),
      by simp⟩
  | @expiredNow _ _ _ c g next b hq hb hle hn hd hnext =>
    refine .inl ⟨?_, ?_⟩
    · intro c' m
      rw [← h c' m]
      exact congrArg (·.waiting c' (.paddingSent m)) (setSide_sq w c _)
    · rintro _ ⟨⟩ m
      rw [hnext]
      simp [blockingEnded]
  | @queued k c y queued next q hq hle hlt hhead hqueued hnext =>
    refine .inl ⟨?_, ?_⟩
    · intro c' m
      exact Multiset.le_zero.mp ((w.sq.waiting_popped k c c' _).trans_eq (h c' m))
    · rintro _ ⟨⟩ m hm
      have hevent : y.event = .paddingSent m :=
        (Config.picked_same hqueued hnext).1.symm.trans hm
      have hy : y ∈ ((w.sq.side c).heap k).items := BinaryHeap.peek_mem hhead
      obtain ⟨hhome, _⟩ := hwf c k y hy
      rw [TriggerEvent.OfAction.home (.inl hevent)] at hhome
      subst hhome
      have hmem : y ∈ w.sq.waiting c (.paddingSent m) := Multiset.mem_filter.mpr ⟨hy, hevent⟩
      rw [h c m] at hmem
      exact absurd hmem (Multiset.notMem_zero y)
  | @timer _ _ _ c m u timers i =>
    exact .inl ⟨hpush (v := w.timerFired c timers) (setSide_sq w c _) (by simp), by simp⟩
  | @padding _ _ _ c mi a actions timeout bypass replace m delay g s hq hs hlt hdue ha hd =>
    have hmachine : a.action.machine = m := by rw [ha]; rfl
    refine .inr ⟨rfl, _, m, h.fires hwf hbarred hplaced hq hs hlt hdue hmachine
      ⟨rfl, rfl, rfl⟩, a, ?_, by rw [ha]; rfl⟩
    have hget := (takeDue_at (f := (·.scheduledAction)) hdue).1
    have hscheduled : w.scheduled c mi = some a := Option.join_eq_some_iff.mpr hget
    have hmi : mi = m := (hplaced c mi a hscheduled).symm.trans hmachine
    exact hmi ▸ hscheduled
  | @block _ _ _ c mi a actions timeout duration bypass replace m delay g delay' g' x s =>
    let step := SimStep.blocked c a.time (a.time + duration) bypass replace
    exact .inl ⟨hpush (v := w.blockFired c x g' step) (setSide_sq w c _) (by simp [blockingBegun]),
      by simp⟩

/-- Picking schedules nothing. -/
theorem picks_scheduled {w w' : Sim R G} {p : Pick} (hplaced : w.Placed) (hp : Picks w p w')
    {c : Bool} {m : MachineId} {a : ScheduledAction} (ha : w'.scheduled c m = some a) :
    w.scheduled c m = some a := by
  cases picks_action hplaced hp c m with
  | kept hsame => exact hsame.symm.trans ha
  | fired _ hgone => exact absurd (hgone.symm.trans ha) (by simp)

/-- The body of the main loop queues no event of an action. -/
theorem iterate_calm [RngCore R] {args : SimulatorArgs G} {w w' : Sim R G} {e : SimEvent}
    {stop : Bool} (h : w.Calm) (hit : w.iterate args e = .ok (stop, w')) : w'.Calm := by
  intro c m
  have hfilter (sq : SimQueue) : sq.waiting c (.paddingSent m) =
      (sq.carried c m).filter (·.event = .paddingSent m) := by
    unfold SimQueue.carried SimQueue.waiting
    rw [Multiset.filter_add, Multiset.filter_filter, Multiset.filter_filter]
    have hnone : ((sq.side c).internal.items.filter
        fun y => y.event = .paddingSent m ∧ y.event = .blockingBegin m) = 0 :=
      Multiset.filter_eq_nil.mpr fun y _ hy => absurd (hy.1.symm.trans hy.2) (by simp)
    rw [hnone, add_zero]
    exact Multiset.filter_congr fun y _ => (and_self_iff).symm
  have hcarried : w'.sq.carried c m = w.sq.carried c m := by
    by_cases hno : e.client = c → ∀ actions framework,
        (w.side c).framework.triggerEvents [e.event] e.time = .ok (actions, framework) →
          ∀ a ∈ actions, ¬ a.SetsAction m
    · exact congrArg (·.2) (iterate_aside hit hno)
    · push Not at hno
      obtain ⟨rfl, actions, framework, hcall, a, ha, hsets⟩ := hno
      obtain ⟨g, hplan⟩ := iterate_own hit hcall ha hsets
      exact congrArg (·.2) hplan
  rw [hfilter, hcarried, ← hfilter]
  exact h c m

end Sim

namespace Framework

/-- For each machine the last thing that was asked for its action. -/
abbrev Requests (D : Type) := MachineId → Option (TriggerAction D)

/-- What is asked after a call for an event: what the call returned for the action of a machine
takes the place of what was asked before, and padding that was reported is asked for no more. -/
def Requests.after (r : Requests D) (x : TriggerEvent × List (TriggerAction D)) : Requests D :=
  fun mi => (x.2.find? fun a => decide (a.SetsAction mi)).or
    (if x.1 = .paddingSent mi then none else r mi)

/-- The last thing that was asked of a machine is padding, and it is still to be reported. -/
def Requests.Pads (r : Requests D) (mi : MachineId) : Prop :=
  ∃ a, r mi = some a ∧ a.isPadding = true

/-- Padding is reported where it was asked for. -/
def Requests.allows (r : Requests D) : TriggerEvent → Bool
  | .paddingSent mi => (r mi).any (·.isPadding)
  | _ => true

/-- A session of calls for one event each that reports padding only where it was asked for. -/
def Requests.honest (r : Requests D) : List (TriggerEvent × List (TriggerAction D)) → Bool
  | [] => true
  | x :: xs => r.allows x.1 && (r.after x).honest xs

/-- What is asked after a session. -/
def Requests.afterAll (r : Requests D) (xs : List (TriggerEvent × List (TriggerAction D))) :
    Requests D := xs.foldl Requests.after r

theorem Requests.allows_iff {r : Requests D} {e : TriggerEvent} :
    r.allows e = true ↔ ∀ mi, e = .paddingSent mi → r.Pads mi := by
  unfold Pads
  cases e with
  | paddingSent m =>
    simp only [allows, Option.any_eq_true, TriggerEvent.paddingSent.injEq]
    constructor
    · rintro ⟨a, ha, hpad⟩ mi rfl
      exact ⟨a, ha, hpad⟩
    · intro h
      obtain ⟨a, ha, hpad⟩ := h m rfl
      exact ⟨a, ha, hpad⟩
  | _ => simp [allows]

theorem Requests.honest_concat {r : Requests D}
    {xs : List (TriggerEvent × List (TriggerAction D))}
    {x : TriggerEvent × List (TriggerAction D)} :
    r.honest (xs ++ [x]) = (r.honest xs && (r.afterAll xs).allows x.1) := by
  induction xs generalizing r with
  | nil => simp [honest, afterAll]
  | cons y ys ih =>
    rw [List.cons_append, honest, honest, ih, Bool.and_assoc]
    rfl

/-- Padding that is asked after a call was returned by the call, or it was asked before, the call
returned nothing else for the machine and did not report it. -/
theorem Requests.after_pads {r : Requests D} {e : TriggerEvent} {actions : List (TriggerAction D)}
    {mi : MachineId} (h : (r.after (e, actions)).Pads mi) :
    (∃ a ∈ actions, a.isPadding = true ∧ a.machine = mi) ∨ r.Pads mi ∧ e ≠ .paddingSent mi := by
  obtain ⟨a, ha, hpad⟩ := h
  unfold after at ha
  rcases Option.or_eq_some_iff.mp ha with hfound | ⟨_, hbefore⟩
  · have hsets : a.SetsAction mi := by simpa using List.find?_some hfound
    exact .inl ⟨a, List.mem_of_find?_eq_some hfound, hpad, hsets.for_machine⟩
  · split at hbefore
    · exact absurd hbefore (by simp)
    · exact .inr ⟨⟨a, hbefore, hpad⟩, ‹_›⟩

variable {T D : Type} [RngCore R] [Time.Duration D] [Time.Instant T D]

theorem run_length {f f' : Framework R T D} {calls : List (List TriggerEvent × T)}
    {actions : List (List (TriggerAction D))} (h : f.run calls = .ok (actions, f')) :
    actions.length = calls.length := by
  induction calls generalizing f f' actions with
  | nil =>
    obtain ⟨rfl, _⟩ := Prod.mk.inj (pure_ok.mp h)
    rfl
  | cons call calls ih =>
    simp only [Framework.run, bind_ok] at h
    obtain ⟨⟨first, f1⟩, _, ⟨rest, f2⟩, hrest, h⟩ := h
    obtain ⟨rfl, _⟩ := Prod.mk.inj (pure_ok.mp h)
    rw [List.length_cons, List.length_cons, ih hrest]

/-- An honest session continues a run of the protocol of padding. -/
theorem honest_obeys {f f' : Framework R T D} {r : Requests D} {reports : List (TriggerEvent × T)}
    {actions : List (List (TriggerAction D))}
    (hrun : f.run (reports.map fun x => ([x.1], x.2)) = .ok (actions, f'))
    (hhonest : r.honest ((reports.map (·.1)).zip actions) = true)
    (hbefore : Reach Use.Initial Obeys (⟨f, r.Pads⟩ : Use R T D)) :
    Reach Use.Initial Obeys
      (⟨f', (r.afterAll ((reports.map (·.1)).zip actions)).Pads⟩ : Use R T D) := by
  induction reports generalizing f r actions with
  | nil =>
    obtain ⟨rfl, rfl⟩ := Prod.mk.inj (pure_ok.mp hrun)
    exact hbefore
  | cons x xs ih =>
    simp only [List.map_cons, Framework.run, bind_ok] at hrun
    obtain ⟨⟨first, f1⟩, hcall, ⟨rest, f2⟩, hrest, hrun⟩ := hrun
    obtain ⟨rfl, rfl⟩ := Prod.mk.inj (pure_ok.mp hrun)
    rw [List.map_cons, List.zip_cons_cons, Requests.honest, Bool.and_eq_true] at hhonest
    obtain ⟨hallows, hrests⟩ := hhonest
    exact ih hrest hrests (.next hbefore ⟨x.1, x.2, first, hcall, Requests.allows_iff.mp hallows,
      fun mi => Requests.after_pads⟩)

/-- An honest session of a new framework is a run of the protocol of padding. -/
theorem Initial.obeys {f f' : Framework R T D} (h : Initial f) {reports : List (TriggerEvent × T)}
    {actions : List (List (TriggerAction D))}
    (hrun : f.run (reports.map fun x => ([x.1], x.2)) = .ok (actions, f'))
    (hhonest : Requests.honest (fun _ => none) ((reports.map (·.1)).zip actions) = true) :
    ∃ asked, Reach Use.Initial Obeys (⟨f', asked⟩ : Use R T D) := by
  refine ⟨_, honest_obeys hrun hhonest (.start ⟨h, ?_⟩)⟩
  rintro mi ⟨a, ha, _⟩
  exact absurd ha (by simp)

end Framework

namespace Config
open Sim

/-- The machines of a side that have asked for padding which the framework has not heard of: it
is scheduled, its event waits, or the event is the next one. -/
def asked (c : Bool) (cfg : Config R G) (mi : MachineId) : Prop :=
  (∃ a, cfg.sim.scheduled c mi = some a ∧ a.action.isPadding = true) ∨
    cfg.sim.sq.waiting c (.paddingSent mi) ≠ 0 ∨
    ∃ e, (∃ w, cfg = .returned e w) ∧ e.client = c ∧ e.event = .paddingSent mi

/-- Padding that was sent is the next thing that the framework hears of. -/
def Prompt : Config R G → Prop
  | .picking w => w.Calm ∨ ∃ e m, w.Imminent e m
  | .returned e w => w.Calm ∧ ∀ m, e.event = .paddingSent m → w.scheduled e.client m = none
  | .done _ => True

variable [RngCore R]

/-- All machines of both sides are tight. -/
def Tight (cfg : Config R G) : Prop := ∀ c, ∀ m ∈ (cfg.sim.side c).framework.machines, m.Tight

/-- In a tight simulation no packet bypasses a blocking and padding is prompt. -/
structure Keeps (cfg : Config R G) : Prop where
  barred : cfg.sim.Barred
  prompt : Prompt cfg

omit [RngCore R] in
theorem Keeps.picks {w w' : Sim R G} {p : Pick} (h : Keeps (.picking w))
    (hwf : w.sq.WellFormed) (hplaced : w.Placed) (hp : Picks w p w') : Keeps (place w' p) := by
  refine ⟨?_, ?_⟩
  · rw [place_sim]
    exact h.barred.picks hp
  · rcases h.prompt with hcalm | ⟨e, m, himminent⟩
    · rcases hcalm.picks hwf h.barred hplaced hp with ⟨hcalm', hother⟩ | ⟨rfl, e, m, himm, _⟩
      · rcases p with _ | ⟨_ | x⟩
        · exact .inl hcalm'
        · trivial
        · exact ⟨hcalm', fun m hm => absurd hm (hother x rfl m)⟩
      · exact .inr ⟨e, m, himm⟩
    · obtain ⟨next, rfl, hevent, hclient, hcalm', hsame⟩ := himminent.picks hwf h.barred hp
      refine ⟨hcalm', fun m' hm' => ?_⟩
      obtain rfl := TriggerEvent.paddingSent.inj (hevent.symm.trans hm')
      rw [hsame, hclient]
      exact himminent.spent

omit [RngCore R] in
/-- A round of picking asks for no padding. -/
theorem Keeps.picks_asked {w w' : Sim R G} {p : Pick} (h : Keeps (.picking w))
    (hwf : w.sq.WellFormed) (hplaced : w.Placed) (hp : Picks w p w') {c : Bool} {mi : MachineId}
    (hmi : asked c (place w' p) mi) : asked c (.picking w) mi := by
  have hscheduled (hs : ∃ a, (place w' p).sim.scheduled c mi = some a ∧
      a.action.isPadding = true) : ∃ a, w.scheduled c mi = some a ∧ a.action.isPadding = true := by
    obtain ⟨a, ha, hpad⟩ := hs
    rw [place_sim] at ha
    exact ⟨a, picks_scheduled hplaced hp ha, hpad⟩
  have hnext {e : SimEvent} (he : ∃ v, place w' p = .returned e v) : p = .found (some e) := by
    obtain ⟨v, hv⟩ := he
    rcases p with _ | ⟨_ | x⟩
    · exact absurd hv (by simp [place])
    · exact absurd hv (by simp [place])
    · exact congrArg (fun x => Pick.found (some x)) (Config.returned.inj hv).1
  rcases h.prompt with hcalm | ⟨e, m, himminent⟩
  · rcases hcalm.picks hwf h.barred hplaced hp with
      ⟨hcalm', hother⟩ | ⟨rfl, e, m, himm, a, ha, hpad⟩
    · rcases hmi with hs | hw | ⟨x, hx, _, hev⟩
      · exact .inl (hscheduled hs)
      · rw [place_sim] at hw
        exact absurd (hcalm' c mi) hw
      · exact absurd hev (hother x (hnext hx) mi)
    · rcases hmi with hs | hw | ⟨x, hx, _⟩
      · exact .inl (hscheduled hs)
      · have hown : c = e.client ∧ mi = m := by
          by_contra hno
          exact hw ((himm.only c mi).trans (if_neg hno))
        obtain ⟨rfl, rfl⟩ := hown
        exact .inl ⟨a, ha, hpad⟩
      · exact absurd (hnext hx) (by simp)
  · obtain ⟨next, rfl, hevent, hclient, hcalm', _⟩ := himminent.picks hwf h.barred hp
    rcases hmi with hs | hw | ⟨x, hx, hc, hev⟩
    · exact .inl (hscheduled hs)
    · exact absurd (hcalm' c mi) hw
    · obtain rfl : next = x := by simpa using hnext hx
      obtain rfl := TriggerEvent.paddingSent.inj (hevent.symm.trans hev)
      refine .inr (.inl ?_)
      change w.sq.waiting c (.paddingSent m) ≠ 0
      rw [himminent.only, if_pos ⟨hc.symm.trans hclient, rfl⟩]
      exact Multiset.singleton_ne_zero e

theorem Keeps.iterate {args : SimulatorArgs G} {e : SimEvent} {w w' : Sim R G} {stop : Bool}
    (h : Keeps (.returned e w)) (hsound : ∀ c, Sound (w.side c)) (htight : Tight (.returned e w))
    (hit : w.iterate args e = .ok (stop, w')) {cfg : Config R G} (hsim : cfg.sim = w')
    (hcfg : cfg = .picking w' ∨ cfg = .done w') : Keeps cfg := by
  refine ⟨?_, ?_⟩
  · rw [hsim]
    exact h.barred.iterate hsound htight hit
  · rcases hcfg with rfl | rfl
    · exact .inl (iterate_calm h.prompt.1 hit)
    · trivial

/-- What is asked after an iteration is what the framework returned in it, or it was asked before
and the framework neither heard of it nor returned anything else for the machine. -/
theorem Keeps.iterate_asked {args : SimulatorArgs G} {e : SimEvent} {w w' : Sim R G} {stop : Bool}
    (h : Keeps (.returned e w)) (hit : w.iterate args e = .ok (stop, w')) {cfg : Config R G}
    (hsim : cfg.sim = w') (hcfg : cfg = .picking w' ∨ cfg = .done w') {c : Bool} {mi : MachineId}
    (hmi : asked c cfg mi) {actions : List (TriggerAction Duration)}
    {framework : Framework R Instant Duration}
    (hcall : (w.side e.client).framework.triggerEvents [e.event] e.time =
      .ok (actions, framework)) {r : Framework.Requests Duration}
    (hr : asked c (.returned e w) mi → r.Pads mi) :
    (if e.client = c then r.after (e.event, actions) else r).Pads mi := by
  obtain ⟨a, ha, hpad⟩ : ∃ a, w'.scheduled c mi = some a ∧ a.action.isPadding = true := by
    rcases hmi with hs | hw | ⟨x, ⟨v, hv⟩, _⟩
    · rwa [hsim] at hs
    · rw [hsim] at hw
      exact absurd (iterate_calm h.prompt.1 hit c mi) hw
    · rcases hcfg with rfl | rfl <;> exact absurd hv (by simp)
  split
  · rename_i hc
    subst hc
    cases hfound : actions.find? fun a => decide (a.SetsAction mi) with
    | some b =>
      have hsets : b.SetsAction mi := by simpa using List.find?_some hfound
      obtain ⟨g, hplan⟩ := iterate_own hit hcall (List.mem_of_find?_eq_some hfound) hsets
      have hplanned := (congrArg (·.1) hplan).symm.trans ha
      have hafter : r.after (e.event, actions) mi = some b := by
        unfold Framework.Requests.after
        rw [hfound]
        rfl
      cases b with
      | cancel | updateTimer => exact absurd hplanned (by simp [TriggerAction.planned])
      | sendPadding | blockOutgoing =>
        obtain rfl := Option.some.inj hplanned
        exact ⟨_, hafter, hpad⟩
    | none =>
      have hno (actions' : List (TriggerAction Duration)) (f : Framework R Instant Duration)
          (hcall' : (w.side e.client).framework.triggerEvents [e.event] e.time =
            .ok (actions', f)) (b : TriggerAction Duration) (hb : b ∈ actions') :
          ¬ b.SetsAction mi := by
        obtain ⟨rfl, _⟩ := Prod.mk.inj (Except.ok.inj (hcall.symm.trans hcall'))
        exact of_decide_eq_false (Bool.eq_false_iff.mpr (List.find?_eq_none.mp hfound b hb))
      have hsame : w.scheduled e.client mi = some a :=
        (congrArg (·.1) (iterate_aside hit fun _ => hno)).symm.trans ha
      have hunsent : e.event ≠ .paddingSent mi := fun hev =>
        absurd ((h.prompt.2 mi hev).symm.trans hsame) (by simp)
      obtain ⟨b, hb, hpads⟩ := hr (.inl ⟨a, hsame, hpad⟩)
      refine ⟨b, ?_, hpads⟩
      unfold Framework.Requests.after
      rw [hfound, if_neg hunsent]
      exact hb
  · rename_i hc
    have hsame : w'.plan c mi = w.plan c mi := iterate_aside hit fun h => absurd h hc
    exact hr (.inl ⟨a, (congrArg (·.1) hsame).symm.trans ha, hpad⟩)

theorem next_machines {args : SimulatorArgs G} {cfg cfg' : Config R G}
    (h : cfg.next args = .ok cfg') (c : Bool) :
    (cfg'.sim.side c).framework.machines = (cfg.sim.side c).framework.machines := by
  cases cfg with
  | picking w =>
    obtain ⟨p, w', hstep, rfl⟩ := next_picking h
    rw [place_sim, (picks_fixed (pickStep_ok hstep) c).2]
    rfl
  | returned e w =>
    obtain ⟨_, w', hit, rfl, _⟩ := next_returned h
    have hframework := iterates_framework (iterate_ok hit).1 c
    split at hframework
    · obtain ⟨actions, hcall⟩ := hframework
      exact (Framework.shape_eq (Framework.triggerEvents_shape hcall)).1
    · exact congrArg (·.machines) hframework
  | done w => exact pure_ok.mp h ▸ rfl

theorem new_bypassable {machines : List Machine} {now : Instant} {padding blocking : F64}
    {integration : Option (Integration G)} {rng : R} {s : SimState R G}
    (h : SimState.new machines now padding blocking integration rng = .ok s) :
    s.blockingBypassable = false := by
  simp only [SimState.new, bind_ok] at h
  obtain ⟨r, _, h⟩ := h
  cases r with
  | error e => exact absurd h (by simp)
  | ok f => exact pure_ok.mp h ▸ rfl

/-- Nothing is scheduled at the start, and no padding is on its way. -/
theorem Begins.calm {args : SimulatorArgs G} {sq : SimQueue} (hsq : sq.BaseTrace) {w : Sim R G}
    (h : Begins args sq (.picking w)) :
    w.Calm ∧ ∀ c a, some a ∉ (w.side c).scheduledAction := by
  obtain ⟨_, _, _, _, _, w', hstart, hw⟩ := h
  obtain rfl : w = w' := by simpa using hw
  obtain ⟨_, hclient, hserver, _, hq, _⟩ := start_ok hstart
  constructor
  · intro c m
    rw [hq]
    refine Multiset.filter_eq_nil.mpr fun y hy hevent => ?_
    exact absurd ((hsq.normal c .internal y hy).symm.trans hevent) (by simp)
  · intro c a ha
    obtain ⟨n, hn⟩ : ∃ n, (w.side c).scheduledAction = List.replicate n none := by
      cases c with
      | false => exact ⟨_, (new_state hserver).2.2.2.1⟩
      | true => exact ⟨_, (new_state hclient).2.2.2.1⟩
    exact absurd (List.eq_of_mem_replicate (hn ▸ ha)) (by simp)

theorem reachable_keeps {args : SimulatorArgs G} {sq : SimQueue} (hsq : sq.BaseTrace)
    {cfg : Config R G} (h : Reachable args sq cfg) (htight : Tight cfg) : Keeps cfg := by
  have hwf := hsq.built.wellFormed
  have hkeeps : Tight cfg → Keeps cfg := by
    refine h.invariant_of (P := fun cfg => Tight cfg → Keeps cfg) ?_ ?_
    · intro cfg hbegins _
      obtain ⟨_, _, _, _, _, w, hstart, rfl⟩ := id hbegins
      obtain ⟨hcalm, hnone⟩ := hbegins.calm hsq
      obtain ⟨_, hclient, hserver, _⟩ := start_ok hstart
      refine ⟨⟨fun c => ?_, fun c a ha => absurd ha (hnone c a)⟩, .inl hcalm⟩
      cases c with
      | false => exact new_bypassable hserver
      | true => exact new_bypassable hclient
    · rintro cfg cfg' hr ih ⟨-, hnext⟩ htight'
      have hsame : Tight cfg := fun c m hm => htight' c m (next_machines hnext c ▸ hm)
      have hcfg := ih hsame
      cases cfg with
      | picking w =>
        obtain ⟨p, w', hstep, rfl⟩ := next_picking hnext
        exact hcfg.picks (reachable_wellFormed hr hwf) (reachable_placed hr) (pickStep_ok hstep)
      | returned e w =>
        obtain ⟨_, w', hit, hsim, hplace⟩ := next_returned hnext
        exact hcfg.iterate (reachable_sound hwf hr) hsame hit hsim hplace
      | done w => exact pure_ok.mp hnext ▸ hcfg
  exact hkeeps htight

/-- What a side's framework heard of, one event a call, with what it returned each time. -/
def session (w : Sim R G) (c : Bool) (actions : List (List (TriggerAction Duration))) :
    List (TriggerEvent × List (TriggerAction Duration)) :=
  ((heard w c).map (·.event)).zip actions

/-- The framework of a side was used honestly: it has become what it is in an honest session,
and what is on its way is asked for there. -/
structure Honest (w0 : Sim R G) (c : Bool) (cfg : Config R G)
    (actions : List (List (TriggerAction Duration))) : Prop where
  run : (w0.side c).framework.run (calls cfg.sim c) =
    .ok (actions, (cfg.sim.side c).framework)
  honest : Framework.Requests.honest (fun _ => none) (session cfg.sim c actions) = true
  asked : ∀ mi, asked c cfg mi →
    (Framework.Requests.afterAll (fun _ => none) (session cfg.sim c actions)).Pads mi

theorem Honest.iterate {args : SimulatorArgs G} {w0 w w' : Sim R G} {e : SimEvent} {c stop : Bool}
    {actions : List (List (TriggerAction Duration))} (h : Honest w0 c (.returned e w) actions)
    (hkeeps : Keeps (.returned e w)) (hit : w.iterate args e = .ok (stop, w'))
    {cfg : Config R G} (hsim : cfg.sim = w') (hcfg : cfg = .picking w' ∨ cfg = .done w') :
    ∃ actions, Honest w0 c cfg actions := by
  have hiterates := (iterate_ok hit).1
  have hframework := iterates_framework hiterates c
  have hheard := iterates_heard hiterates c
  obtain ⟨last, hlast⟩ : ∃ last, (w.side e.client).framework.triggerEvents [e.event] e.time =
      .ok (last, (w'.side e.client).framework) := by
    have hown := iterates_framework hiterates e.client
    rwa [if_pos rfl] at hown
  by_cases hc : e.client = c
  · subst hc
    rw [if_pos rfl] at hheard
    have hsession : session w' e.client (actions ++ [last]) =
        session w e.client actions ++ [(e.event, last)] := by
      have hlen : ((heard w e.client).map (·.event)).length = actions.length := by
        rw [Framework.run_length h.run, calls, List.length_map, List.length_map]
        rfl
      unfold session
      rw [hheard, List.map_append, List.zip_append hlen]
      rfl
    refine ⟨actions ++ [last], ⟨?_, ?_, ?_⟩⟩
    · rw [hsim, calls, hheard, List.map_append]
      exact Framework.run_concat h.run hlast
    · rw [hsim, hsession, Framework.Requests.honest_concat, Bool.and_eq_true]
      refine ⟨h.honest, Framework.Requests.allows_iff.mpr fun mi he => ?_⟩
      exact h.asked mi (.inr (.inr ⟨e, ⟨w, rfl⟩, rfl, he⟩))
    · intro mi hmi
      have hpads := hkeeps.iterate_asked hit hsim hcfg hmi hlast (h.asked mi)
      rw [if_pos rfl] at hpads
      rw [hsim, hsession, Framework.Requests.afterAll, List.foldl_append]
      exact hpads
  · rw [if_neg hc] at hframework hheard
    have hsession : session w' c actions = session w c actions := by
      unfold session
      rw [hheard]
    refine ⟨actions, ⟨?_, ?_, ?_⟩⟩
    · rw [hsim, calls, hheard, hframework]
      exact h.run
    · rw [hsim, hsession]
      exact h.honest
    · intro mi hmi
      have hpads := hkeeps.iterate_asked hit hsim hcfg hmi hlast (h.asked mi)
      rw [if_neg hc] at hpads
      rw [hsim, hsession]
      exact hpads

/-- In a tight simulation the framework of each side is used honestly. -/
theorem session_honest {args : SimulatorArgs G} {sq : SimQueue} (hsq : sq.BaseTrace)
    {w0 : Sim R G} (hbegins : Begins args sq (.picking w0)) {cfg : Config R G}
    (h : ReachableFrom args w0 cfg) (htight : Tight cfg) (c : Bool) :
    ∃ actions, Honest w0 c cfg actions := by
  revert htight
  refine h.invariant_of (P := fun cfg => Tight cfg → ∃ actions, Honest w0 c cfg actions) ?_ ?_
  · rintro _ rfl _
    obtain ⟨hcalm, hnone⟩ := hbegins.calm hsq
    obtain ⟨actions, hrun⟩ := session_run hbegins (.start rfl) c
    obtain ⟨_, _, _, _, _, w, hstart, hw⟩ := hbegins
    obtain rfl : w0 = w := by simpa using hw
    have hheard : heard w0 c = [] := by
      unfold heard
      rw [(start_ok hstart).2.2.2.2.2.2.2.2]
      rfl
    refine ⟨actions, ⟨hrun, ?_, ?_⟩⟩
    · change Framework.Requests.honest _ (((heard w0 c).map (·.event)).zip actions) = true
      rw [hheard]
      rfl
    · rintro mi (⟨a, ha, _⟩ | hw | ⟨x, ⟨v, hv⟩, _⟩)
      · exact absurd (scheduled_mem ha) (hnone c a)
      · exact absurd (hcalm c mi) hw
      · exact absurd hv (by simp)
  · rintro cfg cfg' hfrom ih hnext htight'
    have htight : Tight cfg := fun c m hm => htight' c m (next_machines hnext c ▸ hm)
    obtain ⟨actions, hhonest⟩ := ih htight
    have hreach : Reachable args sq cfg := ReachableFrom.reachable hfrom hbegins
    have hkeeps := reachable_keeps hsq hreach htight
    cases cfg with
    | picking w =>
      obtain ⟨p, w', hstep, rfl⟩ := next_picking hnext
      have hp := pickStep_ok hstep
      have hsession : session (place w' p).sim c actions = session w c actions := by
        rw [place_sim]
        unfold session
        rw [picks_heard hp]
      refine ⟨actions, ⟨?_, ?_, ?_⟩⟩
      · rw [place_sim, calls, picks_heard hp, (picks_fixed hp c).2]
        exact hhonest.run
      · rw [hsession]
        exact hhonest.honest
      · intro mi hmi
        rw [hsession]
        exact hhonest.asked mi (hkeeps.picks_asked (reachable_wellFormed hreach
          hsq.built.wellFormed) (reachable_placed hreach) hp hmi)
    | returned e w =>
      obtain ⟨_, w', hit, hsim, hplace⟩ := next_returned hnext
      exact hhonest.iterate hkeeps hit hsim hplace
    | done w => exact ⟨actions, pure_ok.mp hnext ▸ hhonest⟩

/-- In a tight simulation the use of each framework is a run of the protocol of padding. -/
theorem reachable_obeys {args : SimulatorArgs G} {sq : SimQueue} (hsq : sq.BaseTrace)
    {cfg : Config R G} (h : Reachable args sq cfg) (htight : Tight cfg) (c : Bool) :
    ∃ asked, Reach Framework.Use.Initial Framework.Obeys
      (⟨(cfg.sim.side c).framework, asked⟩ : Framework.Use R Instant Duration) := by
  obtain ⟨w0, hbegins, hfrom⟩ := reachable_from h
  obtain ⟨actions, hhonest⟩ := session_honest hsq hbegins hfrom htight c
  have hrun := hhonest.run
  have hsession := hhonest.honest
  let reports := (heard cfg.sim c).map fun e => (e.event, e.time)
  have hcalls : calls cfg.sim c = reports.map fun x => ([x.1], x.2) := by
    rw [calls, List.map_map]
    rfl
  have hevents : (heard cfg.sim c).map (·.event) = reports.map (·.1) := by
    rw [List.map_map]
    rfl
  rw [hcalls] at hrun
  rw [session, hevents] at hsession
  exact (hbegins.initial c).obeys hrun hsession

/-- Where no blocking lets packets bypass it, the simulator keeps the protocol of padding: each
side's framework hears of padding only where the last thing it asked of that machine was padding
which it has not heard of yet. -/
theorem simulator_obeys {args : SimulatorArgs G} {sq : SimQueue} (hsq : sq.BaseTrace)
    {w0 : Sim R G} (hbegins : Begins args sq (.picking w0)) {cfg : Config R G}
    (h : ReachableFrom args w0 cfg) (htight : Tight cfg) (c : Bool) :
    ∃ actions, (w0.side c).framework.run (calls cfg.sim c) =
        .ok (actions, (cfg.sim.side c).framework) ∧
      Framework.Requests.honest (fun _ => none) (session cfg.sim c actions) = true := by
  obtain ⟨actions, hhonest⟩ := session_honest hsq hbegins h htight c
  exact ⟨actions, hhonest.run, hhonest.honest⟩

theorem padder_tight (budget : Nat) (frac : F64) (limit : Option Dist) :
    (Framework.padder budget frac limit).Tight := by
  intro st hst replace timeout duration l
  rcases List.mem_cons.mp hst with rfl | hst
  · simp [State.new]
  · rw [List.mem_singleton.mp hst]
    simp

/-- A run of so many steps in which the server pads once when a packet comes, with its start. -/
def paddedRun (n : Nat) : Option (Sim Unit Unit × Config Unit Unit) :=
  ranFor [] [Framework.padder 1 (Flt.ofRat (1 / 2)) none] oneSent continuing n

theorem paddedRun_some {n : Nat} {w : Sim Unit Unit} {cfg : Config Unit Unit}
    (h : paddedRun n = some (w, cfg)) :
    Begins continuing oneSent (.picking w) ∧ ReachableFrom continuing w cfg ∧ Tight cfg := by
  obtain ⟨hbegins, hfrom, hstart⟩ := ranFor_some h
  refine ⟨hbegins, hfrom, Reach.invariant (P := Tight) ?_ ?_ hfrom⟩
  · rintro _ rfl c m hm
    obtain ⟨_, hclient, hserver, _⟩ := start_ok hstart
    cases c with
    | true =>
      obtain ⟨_, _, _, _, _, hnew⟩ := Framework.new_ok.mp (new_framework hclient)
      have hnone : w.client.framework.machines = [] := congrArg (·.machines) hnew
      exact absurd (hnone ▸ hm : m ∈ ([] : List Machine)) (by simp)
    | false =>
      obtain ⟨_, _, _, _, _, hnew⟩ := Framework.new_ok.mp (new_framework hserver)
      have hone : w.server.framework.machines =
          [Framework.padder 1 (Flt.ofRat (1 / 2)) none] := congrArg (·.machines) hnew
      have hpadder : m ∈ [Framework.padder 1 (Flt.ofRat (1 / 2)) none] := hone ▸ hm
      exact List.mem_singleton.mp hpadder ▸ padder_tight _ _ _
  · intro c c' hc hnext side m hm
    exact hc side m (next_machines hnext side ▸ hm)

/-- A server that reports the padding it was asked for. -/
theorem padding_honest : ∃ w0, ∃ cfg : Config Unit Unit,
    Begins continuing oneSent (.picking w0) ∧ ReachableFrom continuing w0 cfg ∧ ∃ actions,
      session cfg.sim false actions = [(.tunnelRecv, [.sendPadding 0 false false 0]),
        (.normalRecv, []), (.paddingSent 0, []), (.tunnelSent, [])] ∧
      (w0.side false).framework.run (calls cfg.sim false) =
        .ok (actions, (cfg.sim.side false).framework) ∧
      Framework.Requests.honest (fun _ => none) (session cfg.sim false actions) = true := by
  have hrun : (paddedRun 13).bind (fun r =>
      ((r.1.side false).framework.run (calls r.2.sim false)).toOption.map
        fun answers => session r.2.sim false answers.1) =
      some [(.tunnelRecv, [.sendPadding 0 false false 0]), (.normalRecv, []),
        (.paddingSent 0, []), (.tunnelSent, [])] := by decide +kernel
  simp only [Option.bind_eq_some_iff, Option.map_eq_some_iff, toOption_eq_some] at hrun
  obtain ⟨⟨w0, cfg⟩, hcfg, ⟨actions, f⟩, hanswers, hsession⟩ := hrun
  obtain ⟨hbegins, hfrom, htight⟩ := paddedRun_some hcfg
  obtain ⟨actions', hcalls, hhonest⟩ :=
    simulator_obeys (.push .new ..) hbegins hfrom htight false
  obtain ⟨rfl, _⟩ := Prod.mk.inj (Except.ok.inj (hanswers.symm.trans hcalls))
  exact ⟨w0, cfg, hbegins, hfrom, actions, hsession, hcalls, hhonest⟩

end Config

end Maybenot

import Maybenot.Proofs.Total

namespace Maybenot

/-- Whether an event reports, for the machine, that an action of this kind was taken. -/
def TriggerEvent.reports (mi : Nat) (a : Action) (e : TriggerEvent) : Bool :=
  match a, e with
  | .sendPadding .., .paddingSent machine => decide (machine = mi)
  | .blockOutgoing .., .blockingBegin machine => decide (machine = mi)
  | .updateTimer .., .timerBegin machine => decide (machine = mi)
  | _, _ => false

/-- What an observer keeps of a machine: its state, the limit last sampled, and how often the
state's own action was reported since. -/
structure Watch where
  state : Nat
  limit : Nat
  reports : Nat

namespace Watch

/-- Another report, if it is one of the state's own action. -/
def heard (w : Watch) (own : Bool) : Watch := { w with reports := w.reports + own.toNat }

/-- Going to a different state samples a new limit. -/
def step (mi : Nat) (w : Watch) : Step → Watch
  | .entered j s limit => if j = mi ∧ s ≠ w.state then ⟨s, limit, 0⟩ else w
  | .sampled j s => if j = mi ∧ s = stateEnd then { w with state := stateEnd } else w
  | .performed .. | .scheduled .. => w

/-- What a stretch of the log leaves of an observation. -/
def after (mi : Nat) (w : Watch) (v : List Step) : Watch := v.foldl (step mi) w

theorem after_append (mi : Nat) (w : Watch) (u v : List Step) :
    w.after mi (u ++ v) = (w.after mi u).after mi v := List.foldl_append

end Watch

/-- Whether a step takes the machine out of a state. -/
def Step.leaves (mi s : Nat) : Step → Bool
  | .entered j s' _ => decide (j = mi ∧ s' ≠ s)
  | .sampled j s' => decide (j = mi ∧ s' = stateEnd)
  | .performed .. | .scheduled .. => false

/-- A stretch of the log in which the machine stays in a state. -/
def Stays (mi s : Nat) (v : List Step) : Prop := ∀ x ∈ v, x.leaves mi s = false

theorem Watch.step_stays {mi : Nat} {w : Watch} {x : Step} (h : x.leaves mi w.state = false) :
    w.step mi x = w := by
  cases x with
  | performed => rfl
  | scheduled => rfl
  | entered j s limit => exact if_neg (of_decide_eq_false h)
  | sampled j s => exact if_neg (of_decide_eq_false h)

theorem Watch.after_stays {mi : Nat} {w : Watch} {v : List Step} (h : Stays mi w.state v) :
    w.after mi v = w := by
  induction v with
  | nil => rfl
  | cons x xs ih =>
    change (w.step mi x).after mi xs = w
    rw [Watch.step_stays (h x List.mem_cons_self)]
    exact ih fun y hy => h y (List.mem_cons_of_mem _ hy)

/-- Steps of other machines keep a machine where it is. -/
theorem stays_others {mi s : Nat} {v : List Step} (h : ∀ x ∈ v, x.machine ≠ mi) :
    Stays mi s v := by
  intro x hx
  have hne := h x hx
  cases x with
  | performed => rfl
  | scheduled => rfl
  | entered j s' limit => exact decide_eq_false fun hj => hne hj.1
  | sampled j s' => exact decide_eq_false fun hj => hne hj.1

/-- What a stretch of the log does to a machine: it keeps state and limit, or it goes to
another state in between, where the limit is new, or it ends. -/
inductive Trail (mi : Nat) (v : List Step) : Nat × Nat → Nat × Nat → Prop
  | kept (hv : Stays mi p.1 v) : Trail mi v p p
  | moved (hne : p.1 ≠ stateEnd) (hleft : ¬ Stays mi p.1 v)
      (hw : ∀ w : Watch, w.state = p.1 → w.after mi v = ⟨q.1, q.2, 0⟩) : Trail mi v p q
  | ended (hne : p.1 ≠ stateEnd) (hleft : ¬ Stays mi p.1 v) (hq : q.1 = stateEnd)
      (hw : ∀ w : Watch, w.state = p.1 → (w.after mi v).state = stateEnd) : Trail mi v p q

theorem stays_append {mi s : Nat} {u v : List Step} :
    Stays mi s (u ++ v) ↔ Stays mi s u ∧ Stays mi s v := by
  simp only [Stays, List.mem_append, or_imp, forall_and]

theorem performed_stays (mi s : Nat) (event : Event) : Stays mi s [.performed mi event] := by
  simp [Stays, Step.leaves]

theorem signalled_stays (mi s : Nat) (event : Event) :
    Stays mi s ([.performed mi event] ++ [.sampled mi stateSignal]) := by
  simp [Stays, Step.leaves, stateSignal, stateEnd]

/-- An observation that is up to date: what a limited state has used of its limit was
reported. -/
def Covered (limited : Nat → Prop) (p : Nat × Nat) (w : Watch) : Prop :=
  w.state = p.1 ∧ (limited p.1 → w.limit ≤ p.2 + w.reports)

namespace Trail

theorem trans {mi : Nat} {u v : List Step} {p q r : Nat × Nat} (h1 : Trail mi u p q)
    (h2 : Trail mi v q r) : Trail mi (u ++ v) p r := by
  cases h1 with
  | kept hu =>
    cases h2 with
    | kept hv => exact .kept (stays_append.mpr ⟨hu, hv⟩)
    | moved hne hleft hw =>
      refine .moved hne (fun h => hleft (stays_append.mp h).2) fun w hs => ?_
      rw [Watch.after_append, Watch.after_stays (v := u) (hs ▸ hu)]
      exact hw w hs
    | ended hne hleft hq hw =>
      refine .ended hne (fun h => hleft (stays_append.mp h).2) hq fun w hs => ?_
      rw [Watch.after_append, Watch.after_stays (v := u) (hs ▸ hu)]
      exact hw w hs
  | moved hne hleft hu =>
    have hleft' : ¬ Stays mi p.1 (u ++ v) := fun h => hleft (stays_append.mp h).1
    cases h2 with
    | kept hv =>
      refine .moved hne hleft' fun w hs => ?_
      rw [Watch.after_append, hu w hs]
      exact Watch.after_stays hv
    | moved hne2 _ hw =>
      refine .moved hne hleft' fun w hs => ?_
      rw [Watch.after_append, hu w hs]
      exact hw _ rfl
    | ended hne2 _ hq hw =>
      refine .ended hne hleft' hq fun w hs => ?_
      rw [Watch.after_append, hu w hs]
      exact hw _ rfl
  | ended hne hleft hq hu =>
    cases h2 with
    | kept hv =>
      refine .ended hne (fun h => hleft (stays_append.mp h).1) hq fun w hs => ?_
      rw [Watch.after_append, Watch.after_stays (by rw [hu w hs, ← hq]; exact hv)]
      exact hu w hs
    | moved hne2 _ _ => exact absurd hq hne2
    | ended hne2 _ _ _ => exact absurd hq hne2

/-- A stretch in which the machine stays keeps its limit as well. -/
theorem stays {mi : Nat} {v : List Step} {p q : Nat × Nat} (h : Trail mi v p q)
    (hv : Stays mi p.1 v) : q = p := by
  cases h with
  | kept _ => rfl
  | moved _ hleft _ => exact absurd hv hleft
  | ended _ hleft _ _ => exact absurd hv hleft

/-- The machine stays where it is in two stretches exactly if it is there at the end and stays
where the first one took it in the second. -/
theorem returns {mi : Nat} {u v : List Step} {p q r : Nat × Nat} (h1 : Trail mi u p q)
    (h2 : Trail mi v q r) (hu : p.1 = q.1 → Stays mi p.1 u) :
    Stays mi p.1 (u ++ v) ↔ p.1 = r.1 ∧ Stays mi q.1 v := by
  constructor
  · intro hall
    have hback : r = p := (h1.trans h2).stays hall
    obtain ⟨hfirst, hlast⟩ := stays_append.mp hall
    have hsame : q = p := h1.stays hfirst
    exact ⟨congrArg Prod.fst hback.symm, hsame ▸ hlast⟩
  · intro hends
    obtain ⟨hback, hlast⟩ := hends
    have hsame : r = q := h2.stays hlast
    have hpq : p.1 = q.1 := hsame ▸ hback
    exact stays_append.mpr ⟨hu hpq, hpq ▸ hlast⟩

theorem covered {mi : Nat} {v : List Step} {p q : Nat × Nat} {limited : Nat → Prop}
    {w : Watch} (h : Trail mi v p q) (hend : ¬ limited stateEnd) (hw : Covered limited p w) :
    Covered limited q (w.after mi v) := by
  cases h with
  | kept hv =>
    rw [Watch.after_stays (hw.1 ▸ hv)]
    exact hw
  | moved hne hleft hnew =>
    rw [hnew w hw.1]
    exact ⟨rfl, fun _ => Nat.le_refl _⟩
  | ended hne hleft hq hnew =>
    exact ⟨(hnew w hw.1).trans hq.symm, fun hl => absurd (hq ▸ hl) hend⟩

end Trail

namespace Framework
open Lib

variable {R T D : Type}

/-- The state of a machine and the limit there. -/
def place (rt : MachineRuntime T D) : Nat × Nat := (rt.currentState, rt.stateLimit)

variable [RngCore R]

/-- The move into a state. -/
theorem arrived_trail {f f1 : Framework R T D} {mi s : Nat} {event : Event}
    {rt rt' : MachineRuntime T D} {cur st : State} (hrt : f.runtime[mi]? = some rt)
    (hne : rt.currentState ≠ stateEnd) (hs : s ≠ stateEnd)
    (hin : f1 = (f.sampleNext mi event cur).arrive mi s rt st rt'.stateLimit)
    (hrt' : f1.runtime[mi]? = some rt') :
    Trail mi [.performed mi event, .sampled mi s, .entered mi s rt'.stateLimit]
      (place rt) (place rt') := by
  have hcur := arrived_current hrt hin hrt'
  by_cases hsame : s = rt.currentState
  · subst hsame
    rw [arrived_same hin] at hrt'
    obtain rfl := Option.some.inj (hrt.symm.trans hrt')
    apply Trail.kept
    simp [Stays, Step.leaves, place, hs]
  · refine .moved hne ?_ fun w hw => ?_
    · simp [Stays, Step.leaves, place, hsame]
    · have hw' : w.state ≠ s := fun h => hsame (h.symm.trans hw)
      simp [Watch.after, Watch.step, place, hs, Ne.symm hw', hcur]

variable [Time.Duration D] [Time.Instant T D]

omit [Time.Instant T D] in
/-- Scheduling an action keeps the machine where it is. -/
theorem schedule_stays (f : Framework R T D) (mi s limit : Nat) (st : State) (allowed : Bool) :
    ∃ v, (f.schedule mi s limit st allowed).log = f.log ++ v ∧ (∀ s', Stays mi s' v) ∧
      ∀ event, .performed mi event ∉ v := by
  cases allowed with
  | false => exact ⟨[], by simp [schedule], by simp [Stays], by simp⟩
  | true =>
    refine ⟨[.scheduled mi s limit], ?_, by simp [Stays, Step.leaves], by simp⟩
    unfold schedule placeAction
    cases st.action <;> rfl

/-- What a transition does to its machine, and which events it performs. -/
theorem Moves.trail {f f' : Framework R T D} {mi : Nat} {event : Event} {c : StateChange}
    {rt : MachineRuntime T D} (h : Moves f mi event c f') (hrt : f.runtime[mi]? = some rt) :
    ∃ v rt', f'.log = f.log ++ v ∧ f'.runtime[mi]? = some rt' ∧
      Trail mi v (place rt) (place rt') ∧
      (c = .unchanged ↔ Stays mi rt.currentState v) ∧ .performed mi event ∈ v ∧
      ∀ x, .performed mi x ∈ v → x = event ∨ x = .counterZero := by
  induction h generalizing rt with
  | ended hrt0 hend =>
    exact ⟨_, rt, rfl, hrt, .kept (performed_stays _ _ _),
      iff_of_true rfl (performed_stays _ _ _), List.mem_cons_self, by simp⟩
  | idle hrt0 hne hcur hs =>
    exact ⟨_, rt, rfl, hrt, .kept (performed_stays _ _ _),
      iff_of_true rfl (performed_stays _ _ _), List.mem_cons_self, by simp⟩
  | stop hrt0 hne hcur hs =>
    obtain rfl := Option.some.inj (hrt.symm.trans hrt0)
    refine ⟨_, _, (Emits.stop _ _ _ _ _).log, set_getElem? hrt, ?_, ?_, List.mem_cons_self,
      by simp⟩
    · refine .ended hne ?_ rfl fun w _ => ?_
      · simp [Stays, Step.leaves]
      · simp [Watch.after, Watch.step]
    · simp [Stays, Step.leaves]
  | signal hrt0 hne hcur hs =>
    exact ⟨_, rt, (Emits.signal _ _ _ _).log, hrt, .kept (signalled_stays _ _ _),
      iff_of_true rfl (signalled_stays _ _ _), List.mem_cons_self, by simp⟩
  | enter hrt0 hne hcur hs hreal hst hin hrt' hm hbelow hz hlen =>
    obtain rfl := Option.some.inj (hrt.symm.trans hrt0)
    rename_i mi f cur event s st f1 rt' m below
    obtain ⟨a, b, hab⟩ := applyCounters_runtime st hrt'
    obtain ⟨v, hlog, hv, hperf⟩ :=
      schedule_stays (f1.applyCounters mi rt' st).2 mi s rt'.stateLimit st below
    have harrived := arrived_trail hrt hne hreal.1 hin hrt'
    have harrived_log := Emits.arrived_log hin
    refine ⟨_, _, hlog.trans ?_, (congrArg (·[_]?) (schedule_runtime _ _ _ _ _ _)).trans hab,
      harrived.trans (.kept (hv _)), ?_, List.mem_cons_self, ?_⟩
    · rw [← List.append_assoc]
      exact congrArg (· ++ v) harrived_log
    · rw [stays_append, and_iff_left (hv _)]
      by_cases hsame : rt.currentState = s
      · simp [Stays, Step.leaves, hreal.1, hsame]
      · simp [Stays, Step.leaves, hsame, Ne.symm hsame]
    · intro x hx
      exact .inl (by simpa [hperf] using hx)
  | chain hrt0 hne hcur hs hreal hst hin hrt' hm hbelow hz hnest ha hafter ih =>
    obtain rfl := Option.some.inj (hrt.symm.trans hrt0)
    rename_i mi f cur event s st f1 rt' m below change f2 act last
    obtain ⟨a, b, hab⟩ := applyCounters_runtime st hrt'
    obtain ⟨u, rt2, hu, hrt2, htrail, hstays, _, hnested⟩ := ih hab
    obtain rfl := Option.some.inj (hrt2.symm.trans hafter)
    obtain ⟨v, hlog, hv, hperf⟩ :=
      schedule_stays f2 mi s rt'.stateLimit st (act.isNone && below)
    have harrived := arrived_trail hrt hne hreal.1 hin hrt'
    have hcur' := arrived_current hrt hin hrt'
    have harrived_log := Emits.arrived_log hin
    refine ⟨_, _, hlog.trans ?_, (congrArg (·[_]?) (schedule_runtime _ _ _ _ _ _)).trans hafter,
      (harrived.trans htrail).trans (.kept (hv _)), ?_, List.mem_cons_self, ?_⟩
    · rw [hu, ← List.append_assoc, ← List.append_assoc]
      exact congrArg (· ++ u ++ v) harrived_log
    · rw [stays_append, and_iff_left (hv _)]
      have hcall := harrived.returns htrail fun hsame => by
        have hback : s = rt.currentState := (hsame.trans hcur').symm
        simp [Stays, Step.leaves, place, hback, hne]
      exact (ite_unchanged.trans (and_congr_right fun _ => hstays)).trans hcall.symm
    · intro x hx
      simp only [List.mem_append, hperf, or_false] at hx
      rcases hx with hx | hx
      · exact .inl (by simpa using hx)
      · exact .inr ((hnested x hx).elim id id)

/-- What processing an event does to a machine: it leaves the limit of the state alone, or it
uses some of it, which may reach the limit. -/
inductive Told (f : Framework R T D) (e : TriggerEvent) (mi : Nat) (p : Nat × Nat) :
    List Step → Nat × Nat → Prop
  | plain (hv : Trail mi v p q) (hquiet : .performed mi .limitReached ∉ v)
      (hl : e.limits mi = true → p.1 ≠ stateEnd → ¬ Stays mi p.1 v) : Told f e mi p v q
  | used (hl : e.limits mi = true) (hne : p.1 ≠ stateEnd) (hv : Stays mi p.1 v)
      (hquiet : .performed mi .limitReached ∉ v) (hst : StateOf f mi p.1 st)
      (hu : usedUp st (p.2 - 1) = false) : Told f e mi p v (p.1, p.2 - 1)
  | reached (hl : e.limits mi = true) (hne : p.1 ≠ stateEnd) (hu : Stays mi p.1 u)
      (hst : StateOf f mi p.1 st) (hused : usedUp st (p.2 - 1) = true)
      (hv : Trail mi v (p.1, p.2 - 1) q) (hraised : .performed mi .limitReached ∈ v) :
      Told f e mi p (u ++ v) q

omit [RngCore R] [Time.Duration D] [Time.Instant T D] in
/-- What other machines do before and after does not matter. -/
theorem Told.among {f : Framework R T D} {e : TriggerEvent} {mi : Nat} {p q : Nat × Nat}
    {u v w : List Step} (h : Told f e mi p v q) (hu : ∀ x ∈ u, x.machine ≠ mi)
    (hw : ∀ x ∈ w, x.machine ≠ mi) : Told f e mi p (u ++ v ++ w) q := by
  have hnone {z : List Step} (hz : ∀ x ∈ z, x.machine ≠ mi) :
      .performed mi .limitReached ∉ z := fun hmem => hz _ hmem rfl
  cases h with
  | plain hv hquiet hl =>
    refine .plain ?_ ?_ fun hlim hne hall => ?_
    · exact ((Trail.kept (stays_others hu)).trans hv).trans (.kept (stays_others hw))
    · simp [hquiet, hnone hu, hnone hw]
    · exact hl hlim hne (stays_append.mp (stays_append.mp hall).1).2
  | used hl hne hv hquiet hst hused =>
    refine .used hl hne ?_ ?_ hst hused
    · exact stays_append.mpr ⟨stays_append.mpr ⟨stays_others hu, hv⟩, stays_others hw⟩
    · simp [hquiet, hnone hu, hnone hw]
  | @reached u' st v' _ hl hne hu' hst hused hv hraised =>
    have hall : u ++ (u' ++ v') ++ w = (u ++ u') ++ (v' ++ w) := by simp only [List.append_assoc]
    rw [hall]
    refine .reached hl hne ?_ hst hused (hv.trans (.kept (stays_others hw))) ?_
    · exact stays_append.mpr ⟨stays_others hu, hu'⟩
    · exact List.mem_append_left _ hraised

theorem limits_concerns {e : TriggerEvent} {mi : Nat} (h : e.limits mi = true) :
    e.concerns mi = true := by
  cases e <;> simp_all [TriggerEvent.limits, TriggerEvent.concerns]

theorem event_ne_limitReached (e : TriggerEvent) : e.event ≠ .limitReached := by
  cases e <;> simp [TriggerEvent.event]

omit [RngCore R] [Time.Instant T D] in
theorem place_recorded (rt : MachineRuntime T D) (e : TriggerEvent) (blocked : D) :
    place (rt.recorded e blocked) = place rt := by
  cases e with
  | blockingEnd =>
    simp only [MachineRuntime.recorded]
    split <;> rfl
  | _ => rfl

theorem quiet_of {e : TriggerEvent} {mi : Nat} {v : List Step}
    (h : ∀ x, .performed mi x ∈ v → x = e.event ∨ x = .counterZero) :
    .performed mi .limitReached ∉ v := by
  intro hmem
  rcases h _ hmem with he | he
  · exact event_ne_limitReached e he.symm
  · cases he

/-- The transition of a turn, where the state does not change. -/
theorem Moves.stayed {f g : Framework R T D} {e : TriggerEvent} {blocked : D} {mi : Nat}
    {rt rt' : MachineRuntime T D}
    (h : Moves (f.setRuntime mi (rt.recorded e blocked)) mi e.event .unchanged g)
    (hrt : f.runtime[mi]? = some rt) (hrt' : g.runtime[mi]? = some rt') :
    ∃ v, g.log = f.log ++ v ∧ Stays mi rt.currentState v ∧ .performed mi .limitReached ∉ v ∧
      rt'.currentState = rt.currentState ∧ rt'.stateLimit = rt.stateLimit ∧ Apart mi f g := by
  obtain ⟨v, rt2, hlog, hrt2, htrail, hstays, _, hperf⟩ := h.trail (set_getElem? hrt)
  obtain rfl := Option.some.inj (hrt2.symm.trans hrt')
  rw [place_recorded] at htrail
  rw [recorded_state] at hstays
  have hplace := htrail.stays (hstays.mp rfl)
  exact ⟨v, hlog, hstays.mp rfl, quiet_of hperf, congrArg Prod.fst hplace,
    congrArg Prod.snd hplace, (Apart.setRuntime mi f _).trans h.frame.toApart⟩

theorem Turn.told {e : TriggerEvent} {blocked : D} {f f' : Framework R T D} {mi : Nat}
    {rt : MachineRuntime T D} (h : Turn e blocked f mi f') (hrt : f.runtime[mi]? = some rt) :
    ∃ v rt', f'.log = f.log ++ v ∧ f'.runtime[mi]? = some rt' ∧
      Told f e mi (place rt) v (place rt') := by
  cases h with
  | apart hc =>
    refine ⟨[], rt, by simp, hrt, .plain (.kept (by simp [Stays])) (by simp) fun hl => ?_⟩
    exact absurd (limits_concerns hl) (by simp [hc])
  | moved hc hrt0 hm hrt' hkeep =>
    obtain rfl := Option.some.inj (hrt.symm.trans hrt0)
    obtain ⟨v, rt2, hlog, hrt2, htrail, hstays, _, hperf⟩ := hm.trail (set_getElem? hrt)
    obtain rfl := Option.some.inj (hrt2.symm.trans hrt')
    rw [place_recorded] at htrail
    rw [recorded_state] at hstays
    refine ⟨v, rt2, hlog, hrt', .plain htrail (quiet_of hperf) fun hl hne hv => ?_⟩
    have hplace := htrail.stays hv
    exact hkeep hl ⟨hstays.mpr hv, fun hend => hne ((congrArg Prod.fst hplace).symm.trans hend)⟩
  | used hc hrt0 hl hm hrt' hne hst hu =>
    obtain rfl := Option.some.inj (hrt.symm.trans hrt0)
    obtain ⟨v, hlog, hv, hquiet, hstate, hlimit, hapart⟩ := hm.stayed hrt hrt'
    rw [hstate] at hne hst
    rw [hlimit] at hu
    refine ⟨v, _, hlog, set_getElem? hrt', ?_⟩
    have hplace : place { (_ : MachineRuntime T D) with stateLimit := _ - 1 } =
      ((place rt).1, (place rt).2 - 1) := Prod.ext hstate (congrArg (· - 1) hlimit)
    rw [hplace]
    exact .used hl hne hv hquiet (hapart.stateOf.mp hst) hu
  | reached hc hrt0 hl hm hrt' hne hst hu hlen hm' =>
    obtain rfl := Option.some.inj (hrt.symm.trans hrt0)
    obtain ⟨u, hlog, hv, _, hstate, hlimit, hapart⟩ := hm.stayed hrt hrt'
    rw [hstate] at hne hst
    rw [hlimit] at hu
    obtain ⟨v, rt', hlog', hrt2, htrail, _, hraised, _⟩ := hm'.trail (set_getElem? hrt')
    have hplace : place { (_ : MachineRuntime T D) with stateLimit := _ - 1 } =
      ((place rt).1, (place rt).2 - 1) := Prod.ext hstate (congrArg (· - 1) hlimit)
    rw [hplace] at htrail
    refine ⟨u ++ v, rt', ?_, hrt2, .reached hl hne hv (hapart.stateOf.mp hst) hu htrail hraised⟩
    rw [hlog', ← List.append_assoc]
    exact congrArg (· ++ v) hlog

omit [RngCore R] [Time.Duration D] [Time.Instant T D] in
theorem Told.machines {f g : Framework R T D} {e : TriggerEvent} {mi : Nat} {p q : Nat × Nat}
    {v : List Step} (h : Told g e mi p v q) (hm : g.machines = f.machines) :
    Told f e mi p v q := by
  have hof {s : Nat} {st : State} (hst : StateOf g mi s st) : StateOf f mi s st := by
    obtain ⟨m, hmach, hs⟩ := hst
    exact ⟨m, hm ▸ hmach, hs⟩
  cases h with
  | plain hv hquiet hl => exact .plain hv hquiet hl
  | used hl hne hv hquiet hst hu => exact .used hl hne hv hquiet (hof hst) hu
  | reached hl hne hu hst hused hv hraised => exact .reached hl hne hu (hof hst) hused hv hraised

/-- Another machine's turn. -/
theorem Turn.others {e : TriggerEvent} {blocked : D} {f f' : Framework R T D} {i mi : Nat}
    (h : Turn e blocked f i f') (hne : mi ≠ i) :
    ∃ v, f'.log = f.log ++ v ∧ (∀ x ∈ v, x.machine ≠ mi) ∧ f'.runtime[mi]? = f.runtime[mi]? := by
  obtain ⟨v, hv⟩ := h.emits
  refine ⟨v, hv.log, fun x hx hmi => ?_, (h.apart_of.others mi hne).1⟩
  exact hne (hmi.symm.trans (hv.who x hx).1)

theorem processEvent_told {f f' : Framework R T D} {e : TriggerEvent} {mi : Nat}
    {rt : MachineRuntime T D} (h : f.processEvent e = .ok f') (hrt : f.runtime[mi]? = some rt) :
    ∃ v rt', f'.log = f.log ++ v ∧ f'.runtime[mi]? = some rt' ∧
      Told f e mi (place rt) v (place rt') := by
  suffices hends : f'.machines = f.machines ∧ ∃ v rt', f'.log = f.log ++ v ∧
      f'.runtime[mi]? = some rt' ∧ Told f e mi (place rt) v (place rt') from hends.2
  refine processEvent_own
    (P := fun g => g.machines = f.machines ∧ ∃ v, g.log = f.log ++ v ∧
      (∀ x ∈ v, x.machine ≠ mi) ∧ g.runtime[mi]? = some rt)
    (Q := fun g => g.machines = f.machines ∧ ∃ v rt', g.log = f.log ++ v ∧
      g.runtime[mi]? = some rt' ∧ Told f e mi (place rt) v (place rt'))
    (List.getElem?_eq_some_iff.mp hrt).1 ?_ ?_ ?_ ?_ h
  · intro i g g' hi hg hturn
    obtain ⟨hmach, v, hlog, hv, hsame⟩ := hg
    obtain ⟨u, hlog', hu, hsame'⟩ := hturn.others hi
    refine ⟨hturn.apart_of.machines.trans hmach, v ++ u, ?_, ?_, hsame'.trans hsame⟩
    · rw [hlog', hlog, List.append_assoc]
    · exact fun x hx => (List.mem_append.mp hx).elim (hv x) (hu x)
  · intro g g' hg hturn
    obtain ⟨hmach, v, hlog, hv, hsame⟩ := hg
    obtain ⟨u, rt', hlog', hrt', htold⟩ := hturn.told hsame
    refine ⟨hturn.apart_of.machines.trans hmach, v ++ u ++ [], rt', ?_, hrt', ?_⟩
    · rw [hlog', hlog, List.append_nil, List.append_assoc]
    · exact (htold.machines hmach).among hv (by simp)
  · intro i g g' hi hg hturn
    obtain ⟨hmach, v, rt', hlog, hrt', htold⟩ := hg
    obtain ⟨u, hlog', hu, hsame'⟩ := hturn.others hi
    refine ⟨hturn.apart_of.machines.trans hmach, [] ++ v ++ u, rt', ?_, hsame'.trans hrt',
      htold.among (by simp) hu⟩
    rw [hlog', hlog, List.nil_append, List.append_assoc]
  · obtain ⟨hlog, _, _, _⟩ := recorded_emits f e (fun _ => True)
    rw [recorded_runtime]
    exact ⟨(shape_eq (recorded_shape f e)).1, [], hlog, by simp, hrt⟩

/-- The action of the state a machine is in; a machine that has ended is in none. -/
def currentAction (f : Framework R T D) (mi : Nat) : Option Action := do
  let rt ← f.runtime[mi]?
  let m ← f.machines[mi]?
  let st ← if rt.currentState = stateEnd then none else m.states[rt.currentState]?
  st.action

/-- An event that uses up the limit of a machine's state reports the state's own action. -/
def Own (f : Framework R T D) (mi : Nat) (e : TriggerEvent) : Prop :=
  ∀ a, f.currentAction mi = some a → a.hasLimit = true → e.limits mi = true →
    e.reports mi a = true

/-- Whether an event reports the action of the state a machine is in. -/
def reported (f : Framework R T D) (mi : Nat) (e : TriggerEvent) : Bool :=
  (f.currentAction mi).any (e.reports mi)

/-- What runs come to together with an observation of one machine, within a call or between
two calls, where no event reports the action of another state. -/
inductive Tracked (mi : Nat) : Bool → Framework R T D → Watch → Prop
  | start (h : Initial f) (hrt : f.runtime[mi]? = some rt) :
      Tracked mi false f ⟨rt.currentState, rt.stateLimit, 0⟩
  | call (h : Tracked mi false f w) (now : T) : Tracked mi true (f.startCall now) w
  | event (h : Tracked mi true f w) (hown : Own f mi e) (he : f.processEvent e = .ok f')
      (hlog : f'.log = f.log ++ v) :
      Tracked mi true f' ((w.heard (f.reported mi e)).after mi v)
  | signals (h : Tracked mi true f w) (hd : f.deliverSignal = .ok f')
      (hlog : f'.log = f.log ++ v) : Tracked mi false f' (w.after mi v)

/-- A state whose action has a limit. -/
def Limited (f : Framework R T D) (mi s : Nat) : Prop :=
  s ≠ stateEnd ∧ ∃ st a, StateOf f mi s st ∧ st.action = some a ∧ a.hasLimit = true

omit [RngCore R] [Time.Duration D] [Time.Instant T D] in
theorem currentAction_eq {f : Framework R T D} {mi : Nat} {rt : MachineRuntime T D} {a : Action}
    (hrt : f.runtime[mi]? = some rt) :
    f.currentAction mi = some a ↔ rt.currentState ≠ stateEnd ∧
      ∃ st, StateOf f mi rt.currentState st ∧ st.action = some a := by
  unfold currentAction StateOf
  by_cases hend : rt.currentState = stateEnd
  · simp [hrt, hend]
  · simp only [hrt, hend, if_false, Option.bind_eq_bind, Option.bind_some,
      Option.bind_eq_some_iff, ne_eq, not_false_eq_true, true_and]
    constructor
    · intro h
      obtain ⟨m, hm, st, hst, ha⟩ := h
      exact ⟨st, ⟨m, hm, hst⟩, ha⟩
    · intro h
      obtain ⟨st, ⟨m, hm, hst⟩, ha⟩ := h
      exact ⟨m, hm, st, hst, ha⟩

omit [RngCore R] [Time.Duration D] [Time.Instant T D] in
theorem limited_iff {f : Framework R T D} {mi : Nat} {rt : MachineRuntime T D}
    (hrt : f.runtime[mi]? = some rt) :
    Limited f mi rt.currentState ↔
      ∃ a, f.currentAction mi = some a ∧ a.hasLimit = true := by
  simp only [currentAction_eq hrt, Limited]
  constructor
  · intro h
    obtain ⟨hne, st, a, hst, ha, hl⟩ := h
    exact ⟨a, ⟨hne, st, hst, ha⟩, hl⟩
  · intro h
    obtain ⟨a, ⟨hne, st, hst, ha⟩, hl⟩ := h
    exact ⟨hne, st, a, hst, ha, hl⟩

omit [RngCore R] [Time.Duration D] [Time.Instant T D] in
/-- An own report makes up for what an event uses of the limit. -/
theorem Told.covered {f : Framework R T D} {e : TriggerEvent} {mi : Nat} {p q : Nat × Nat}
    {v : List Step} {limited : Nat → Prop} {w : Watch} {own : Bool} (h : Told f e mi p v q)
    (hend : ¬ limited stateEnd) (hw : Covered limited p w)
    (hown : limited p.1 → e.limits mi = true → own = true) :
    Covered limited q ((w.heard own).after mi v) := by
  have hused (hl : e.limits mi = true) : Covered limited (p.1, p.2 - 1) (w.heard own) := by
    refine ⟨hw.1, fun hlim => ?_⟩
    have hcov := hw.2 hlim
    simp only [Watch.heard, hown hlim hl, Bool.toNat_true]
    omega
  cases h with
  | plain hv hquiet hl =>
    apply hv.covered hend
    exact ⟨hw.1, fun hlim => (hw.2 hlim).trans (Nat.add_le_add_left (Nat.le_add_right _ _) _)⟩
  | used hl hne hv hquiet hst hu =>
    rw [Watch.after_stays (w := w.heard own) (hw.1.symm ▸ hv)]
    exact hused hl
  | reached hl hne hu hst hspent hv hraised =>
    rw [Watch.after_append, Watch.after_stays (w := w.heard own) (hw.1.symm ▸ hu)]
    exact hv.covered hend (hused hl)

/-- The observation of a machine is up to date. -/
def UpToDate (f : Framework R T D) (mi : Nat) (w : Watch) : Prop :=
  ∀ rt, f.runtime[mi]? = some rt → Covered (Limited f mi) (place rt) w

omit [RngCore R] [Time.Duration D] [Time.Instant T D] in
theorem limited_machines {f g : Framework R T D} (hm : g.machines = f.machines) (mi : Nat) :
    Limited g mi = Limited f mi := by
  funext s
  simp only [Limited, StateOf, hm]

/-- What the delivery of signals does to a machine. -/
theorem deliverSignal_trail {f f' : Framework R T D} {mi : Nat} {rt : MachineRuntime T D}
    (h : f.deliverSignal = .ok f') (hrt : f.runtime[mi]? = some rt) :
    f'.machines = f.machines ∧ ∃ v rt', f'.log = f.log ++ v ∧ f'.runtime[mi]? = some rt' ∧
      Trail mi v (place rt) (place rt') := by
  refine deliverSignal_keeps (P := fun g => g.machines = f.machines ∧ ∃ v rt',
    g.log = f.log ++ v ∧ g.runtime[mi]? = some rt' ∧ Trail mi v (place rt) (place rt'))
    (fun _ hg => hg) ?_ ⟨rfl, [], rt, by simp, hrt, .kept (by simp [Stays])⟩ h
  intro g j c g' hg hm
  obtain ⟨hmach, v, rt', hlog, hrt', htrail⟩ := hg
  refine ⟨hm.frame.machines.trans hmach, ?_⟩
  by_cases hj : mi = j
  · subst hj
    obtain ⟨u, rt2, hlog', hrt2, htrail', _⟩ := hm.trail hrt'
    exact ⟨v ++ u, rt2, by rw [hlog', hlog, List.append_assoc], hrt2, htrail.trans htrail'⟩
  · obtain ⟨u, hu⟩ := hm.emits
    refine ⟨v ++ u, rt', by rw [hu.log, hlog, List.append_assoc],
      (hm.frame.others mi hj).1.trans hrt', htrail.trans (.kept (stays_others fun x hx => ?_))⟩
    exact fun hmi => hj (hmi.symm.trans (hu.who x hx))

theorem Tracked.runtime {mi : Nat} {inside : Bool} {f : Framework R T D} {w : Watch}
    (h : Tracked mi inside f w) : ∃ rt, f.runtime[mi]? = some rt := by
  induction h with
  | start h hrt => exact ⟨_, hrt⟩
  | call h now ih => exact ih
  | event h hown he hlog ih =>
    obtain ⟨rt, hrt⟩ := ih
    obtain ⟨_, rt', _, hrt', _⟩ := processEvent_told he hrt
    exact ⟨rt', hrt'⟩
  | signals h hd hlog ih =>
    obtain ⟨rt, hrt⟩ := ih
    obtain ⟨_, _, rt', _, hrt', _⟩ := deliverSignal_trail hd hrt
    exact ⟨rt', hrt'⟩

theorem Tracked.upToDate {mi : Nat} {inside : Bool} {f : Framework R T D} {w : Watch}
    (h : Tracked mi inside f w) : UpToDate f mi w := by
  induction h with
  | start h hrt =>
    intro rt hrt'
    obtain rfl := Option.some.inj (hrt.symm.trans hrt')
    exact ⟨rfl, fun _ => Nat.le_refl _⟩
  | call h now ih => exact ih
  | event h hown he hlog ih =>
    rename_i f w f' v e
    intro rt' hrt'
    obtain ⟨rt, hrt⟩ := h.runtime
    obtain ⟨u, rt2, hlog', hrt2, htold⟩ := processEvent_told he hrt
    obtain rfl := Option.some.inj (hrt2.symm.trans hrt')
    obtain rfl := List.append_cancel_left (hlog.symm.trans hlog')
    rw [limited_machines (shape_eq (processEvent_shape he)).1]
    apply htold.covered (fun hl => hl.1 rfl) (ih rt hrt)
    intro hlim hl
    obtain ⟨a, ha, hhas⟩ := (limited_iff hrt).mp hlim
    simp only [reported, ha, Option.any_some]
    exact hown a ha hhas hl
  | signals h hd hlog ih =>
    intro rt' hrt'
    obtain ⟨rt, hrt⟩ := h.runtime
    obtain ⟨hmach, u, rt2, hlog', hrt2, htrail⟩ := deliverSignal_trail hd hrt
    obtain rfl := Option.some.inj (hrt2.symm.trans hrt')
    obtain rfl := List.append_cancel_left (hlog.symm.trans hlog')
    rw [limited_machines hmach]
    exact htrail.covered (fun hl => hl.1 rfl) (ih rt hrt)

/-- Whole calls, none of whose events reports the action of another state. -/
theorem Tracked.triggerEvents {mi : Nat} {f f' : Framework R T D} {w : Watch}
    {events : List TriggerEvent} {now : T} {actions : List (TriggerAction D)}
    (h : Tracked mi false f w) (hown : ∀ before e after g, events = before ++ e :: after →
      (f.startCall now).processEvents before = .ok g → Own g mi e)
    (hcall : f.triggerEvents events now = .ok (actions, f')) : ∃ w', Tracked mi false f' w' := by
  obtain ⟨f1, h1, hd, _⟩ := triggerEvents_ok hcall
  have hevents : ∀ done rest g w, events = done ++ rest →
      (f.startCall now).processEvents done = .ok g → Tracked mi true g w →
      g.processEvents rest = .ok f1 → ∃ w', Tracked mi true f1 w' := by
    intro done rest
    induction rest generalizing done with
    | nil =>
      intro g w _ _ hw hrest
      obtain rfl : g = f1 := by simpa [processEvents] using hrest
      exact ⟨w, hw⟩
    | cons e rest ih =>
      intro g w hall hdone hw hrest
      unfold processEvents at hrest
      rw [List.foldlM_cons, bind_ok] at hrest
      obtain ⟨g', he, hrest⟩ := hrest
      obtain ⟨v, hv⟩ := processEvent_emits he
      apply ih (done ++ [e]) g' _ (by simp [hall]) _
        (hw.event (hown done e rest g hall hdone) he hv.log) hrest
      unfold processEvents at hdone ⊢
      rw [List.foldlM_append, hdone]
      simpa using he
  obtain ⟨w', hw'⟩ := hevents [] events _ _ rfl rfl (h.call now) h1
  obtain ⟨rt, hrt⟩ := hw'.runtime
  obtain ⟨_, v, _, hlog, _⟩ := deliverSignal_trail hd hrt
  exact ⟨_, hw'.signals hd hlog⟩

theorem usedUp_limited {st : State} {a : Action} (ha : st.action = some a)
    (hlim : a.hasLimit = true) (limit : Nat) : usedUp st limit = decide (limit = 0) := by
  simp [usedUp, ha, hlim]

/-- Where all events so far reported the action of the machine's own state, and only there, the
limit counts that action: without a change of state only a report of it uses up some of the limit
or raises `LimitReached`, and that not before the limit sampled has been reported as often. -/
theorem limit_counts_own {mi : Nat} {f f' : Framework R T D} {w : Watch} {a : Action}
    {e : TriggerEvent} (h : Tracked mi true f w) (ha : f.currentAction mi = some a)
    (hlim : a.hasLimit = true) (he : f.processEvent e = .ok f') :
    ∃ rt rt' v, f.runtime[mi]? = some rt ∧ f'.runtime[mi]? = some rt' ∧ f'.log = f.log ++ v ∧
      (Stays mi rt.currentState v →
        (((rt'.stateLimit ≠ rt.stateLimit →
            e.reports mi a = true ∧ rt'.stateLimit + 1 = rt.stateLimit) ∧
          (.performed mi .limitReached ∈ v → e.reports mi a = true)) ↔ Own f mi e)) ∧
      (Own f mi e → .performed mi .limitReached ∈ v →
        e.reports mi a = true ∧ w.state = rt.currentState ∧ w.limit ≤ w.reports + 1) := by
  obtain ⟨rt, hrt⟩ := h.runtime
  obtain ⟨v, rt', hlog, hrt', htold⟩ := processEvent_told he hrt
  obtain ⟨hne, st, hst, hact⟩ := (currentAction_eq hrt).mp ha
  have hcov : w.state = rt.currentState ∧ w.limit ≤ rt.stateLimit + w.reports := by
    have hup := h.upToDate rt hrt
    exact ⟨hup.1, hup.2 ((limited_iff hrt).mpr ⟨a, ha, hlim⟩)⟩
  have hown : Own f mi e ↔ (e.limits mi = true → e.reports mi a = true) := by
    constructor
    · exact fun h => h a ha hlim
    · intro h b hb _
      obtain rfl := Option.some.inj (ha.symm.trans hb)
      exact h
  have hspent {st' : State} (hst' : StateOf f mi rt.currentState st') :
      usedUp st' (rt.stateLimit - 1) = decide (rt.stateLimit - 1 = 0) := by
    obtain rfl := hst.unique hst'
    exact usedUp_limited hact hlim _
  have hplace {p : Nat × Nat} (hp : place rt' = p) : rt'.stateLimit = p.2 := congrArg Prod.snd hp
  refine ⟨rt, rt', v, hrt, hrt', hlog, fun hstays => ?_, fun ho hraised => ?_⟩
  · rw [hown]
    generalize hq : place rt' = q at htold
    cases htold with
    | plain hv hquiet hl =>
      have hsame : rt'.stateLimit = rt.stateLimit := hplace (hq.trans (hv.stays hstays))
      refine iff_of_true ⟨fun hdiff => absurd hsame hdiff, fun hr => absurd hr hquiet⟩ fun hlm => ?_
      exact absurd hstays (hl hlm hne)
    | used hl _ hv hquiet hst' hu =>
      have hlimit : rt'.stateLimit = rt.stateLimit - 1 := hplace hq
      have hmore : ¬ rt.stateLimit - 1 = 0 := of_decide_eq_false ((hspent hst').symm.trans hu)
      constructor
      · intro hclaim _
        exact (hclaim.1 (by omega)).1
      · intro hrep
        exact ⟨fun _ => ⟨hrep hl, by omega⟩, fun hr => absurd hr hquiet⟩
    | reached hl _ hu hst' hused hv hraised =>
      have hsame := hv.stays (stays_append.mp hstays).2
      have hlimit : rt'.stateLimit = rt.stateLimit - 1 := hplace (hq.trans hsame)
      constructor
      · intro hclaim _
        exact hclaim.2 (List.mem_append_right _ hraised)
      · intro hrep
        exact ⟨fun _ => ⟨hrep hl, by omega⟩, fun _ => hrep hl⟩
  · generalize hq : place rt' = q at htold
    cases htold with
    | plain hv hquiet hl => exact absurd hraised hquiet
    | used hl _ hv hquiet hst' hu => exact absurd hraised hquiet
    | reached hl _ hu hst' hused hv _ =>
      have hlast : rt.stateLimit - 1 = 0 := of_decide_eq_true ((hspent hst').symm.trans hused)
      exact ⟨hown.mp ho hl, hcov.1, by omega⟩

/-- Padding at once, up to a number of times. -/
def padUpTo (limit : Rat) : Action :=
  .sendPadding false false ⟨.uniform ⟨0⟩ ⟨0⟩, ⟨0⟩, ⟨0⟩⟩
    (some ⟨.uniform (Flt.ofRat limit) (Flt.ofRat limit), ⟨0⟩, ⟨0⟩⟩)

/-- A machine that pads up to twice. -/
def twice : Machine := .free [{ State.new (fun _ => []) with action := some (padUpTo 2) }]

/-- A machine that sets a timer first, and from the first packet on pads up to once. -/
def timedPadder : Machine :=
  .free [
    { State.new (fun
        | .normalSent => certain 1
        | _ => []) with
      action := some (.updateTimer false ⟨.uniform ⟨0⟩ ⟨0⟩, ⟨0⟩, ⟨0⟩⟩ none) },
    { State.new (fun _ => []) with action := some (padUpTo 1) }]

/-- The second padding packet reaches a limit of two. -/
theorem twice_counts : ∃ (f f' : Framework Unit Instant Duration) (w : Watch) (v : List Step),
    Tracked 0 true f w ∧ f.currentAction 0 = some (padUpTo 2) ∧ (padUpTo 2).hasLimit = true ∧
      f.processEvent (.paddingSent 0) = .ok f' ∧ f'.log = f.log ++ v ∧
      .performed 0 .limitReached ∈ v ∧ w.limit ≤ w.reports + 1 := by
  have hrun : ((play [twice] []).bind fun f0 =>
      ((f0.startCall 0).processEvent (.paddingSent 0)).toOption.bind fun f =>
        (f.processEvent (.paddingSent 0)).toOption.map fun f' =>
          ((f0.startCall 0).currentAction 0, f.currentAction 0, f.log.length,
            decide (.performed 0 .limitReached ∈ f'.log.drop 1))) =
      some (some (padUpTo 2), some (padUpTo 2), 1, true) := by decide +kernel
  simp only [Option.bind_eq_some_iff, Option.map_eq_some_iff, toOption_eq_some,
    Prod.mk.injEq] at hrun
  obtain ⟨f0, h0, f, hf, f', hf', ha0, ha, hlen, hraised⟩ := hrun
  have hown {g : Framework Unit Instant Duration} (hg : g.currentAction 0 = some (padUpTo 2)) :
      Own g 0 (.paddingSent 0) := by
    intro b hb _ _
    obtain rfl := Option.some.inj (hg.symm.trans hb)
    rfl
  obtain ⟨u, hu⟩ := processEvent_emits hf
  obtain ⟨rt0, hrt0⟩ : ∃ rt, f0.runtime[0]? = some rt := by
    unfold currentAction at ha0
    obtain ⟨rt, hrt, _⟩ := Option.bind_eq_some_iff.mp ha0
    exact ⟨rt, hrt⟩
  have hw := ((Tracked.start (play_initial h0) hrt0).call 0).event (hown ha0) hf hu.log
  obtain ⟨_, _, v, _, _, hlog, _, hclaim⟩ := limit_counts_own hw ha rfl hf'
  have hmem : .performed 0 .limitReached ∈ v := by
    have hdrop : f'.log.drop 1 = v := by rw [hlog, ← hlen, List.drop_left]
    exact hdrop ▸ of_decide_eq_true hraised
  exact ⟨f, f', _, v, hw, ha, rfl, hf', hlog, hmem, (hclaim (hown ha) hmem).2.2⟩

/-- The report of a timer of an earlier state uses up the limit of the padding, of which there
was none yet. -/
theorem timer_uses_padding_limit : ∃ (f f' : Framework Unit Instant Duration) (a : Action)
    (rt rt' : MachineRuntime Instant Duration), Reachable f ∧
    (f.startCall 0).currentAction 0 = some a ∧ a.hasLimit = true ∧
    (f.startCall 0).processEvent (.timerBegin 0) = .ok f' ∧
    (f.startCall 0).runtime[0]? = some rt ∧ f'.runtime[0]? = some rt' ∧
    Stays 0 rt.currentState f'.log ∧ rt'.currentState = rt.currentState ∧
    TriggerEvent.reports 0 a (.timerBegin 0) = false ∧
    rt.stateLimit = 1 ∧ rt'.stateLimit = 0 ∧ .performed 0 .limitReached ∈ f'.log := by
  have hrun : ((play [timedPadder] [([.normalSent], 0)]).bind fun f =>
      ((f.startCall 0).processEvent (.timerBegin 0)).toOption.bind fun f' =>
        (f.startCall 0).runtime[0]?.bind fun rt => f'.runtime[0]?.map fun rt' =>
          (decide ((f.startCall 0).currentAction 0 = some (padUpTo 1)), place rt, place rt',
            decide (f'.log = [.performed 0 .timerBegin, .performed 0 .limitReached]))) =
      some (true, (1, 1), (1, 0), true) := by decide +kernel
  simp only [Option.bind_eq_some_iff, Option.map_eq_some_iff, toOption_eq_some, place,
    Prod.mk.injEq, decide_eq_true_eq] at hrun
  obtain ⟨f, h, f', hf', rt, hrt, rt', hrt', ha, ⟨hs, hl⟩, ⟨hs', hl'⟩, hlog⟩ := hrun
  refine ⟨f, f', padUpTo 1, rt, rt', play_reachable h, ha, rfl, hf', hrt, hrt', ?_, ?_, rfl, hl,
    hl', ?_⟩
  · rw [hlog]
    simp [Stays, Step.leaves]
  · rw [hs, hs']
  · simp [hlog]

end Framework

end Maybenot

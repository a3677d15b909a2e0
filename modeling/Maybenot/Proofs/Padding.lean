import Maybenot.Proofs.Log
import Mathlib.Algebra.Order.Field.Rat

namespace Maybenot
open Lib

/-- The packet counts that limit the padding of a machine: its own and all. -/
structure Counts where
  padding : Nat
  total : Nat
  allPadding : Nat
  allTotal : Nat
deriving DecidableEq

def TriggerAction.isPadding : TriggerAction D → Bool
  | .sendPadding .. => true
  | _ => false

/-- A state whose action is padding. -/
def State.pads (st : State) : Prop := ∃ b r t l, st.action = some (.sendPadding b r t l)

/-- A limit on the ratio of padding. A fraction of zero sets none, and no packets at all
are below any. -/
def BelowRatio (frac : F64) (padding total : Nat) : Prop :=
  ∃ q, frac.val = .fin q ∧ (q = 0 ∨ total = 0 ∨ (padding : ℚ) / total < q)

/-- Padding within the limits: the state's, and the budget of the machine or both ratios. -/
structure Legitimate (m : Machine) (frac : F64) (c : Counts) (limit : Nat) : Prop where
  limit : 0 < limit
  packets : c.padding < m.allowedPaddingPackets ∨
    (BelowRatio m.maxPaddingFrac c.padding c.total ∧ BelowRatio frac c.allPadding c.allTotal)

/-- The check of the limits gives no early answer for want of packets. -/
def Counted (m : Machine) (frac : F64) (c : Counts) : Prop :=
  c.padding < m.allowedPaddingPackets ∨
    ((m.maxPaddingFrac.val = .fin 0 ∨ 0 < c.total) ∧ (frac.val = .fin 0 ∨ 0 < c.allTotal))

/-- No state of the machine can sample a limit of zero. -/
def PositiveLimits (R : Type) [RngCore R] (m : Machine) : Prop :=
  ∀ st ∈ m.states, ∀ a, st.action = some a → ∀ rng : R, 0 < (a.sampleLimit rng).1

namespace Framework

theorem isFraction_fin {x : F64} (h : isFraction x = true) : ∃ q, x.val = .fin q ∧ 0 ≤ q := by
  unfold isFraction at h
  cases hx : x.val with
  | nan => simp [hx] at h
  | inf neg => cases neg <;> simp [hx, Val.le] at h
  | fin q =>
    simp only [hx, Val.le, Bool.and_eq_true, decide_eq_true_eq] at h
    exact ⟨q, rfl, h.1⟩

theorem belowRatio_of {x : F64} {padding total : Nat} (hx : isFraction x = true)
    (h : ((Val.fin 0).lt x.val && x.val.le (Val.div padding total)) = false) :
    BelowRatio x padding total := by
  obtain ⟨q, hq, h0⟩ := isFraction_fin hx
  refine ⟨q, hq, ?_⟩
  by_cases ht : total = 0
  · exact .inr (.inl ht)
  · have ht' : (total : ℚ) ≠ 0 := by exact_mod_cast ht
    simp only [hq, Val.lt, Val.div, ht', if_false, Val.le, Bool.and_eq_false_iff,
      decide_eq_false_iff_not, not_lt, not_le] at h
    exact h.elim (fun h => .inl (le_antisymm h h0)) (fun h => .inr (.inr h))

theorem belowRatio_none {x : F64} (padding : Nat) (hx : isFraction x = true) :
    BelowRatio x padding 0 := by
  obtain ⟨q, hq, _⟩ := isFraction_fin hx
  exact ⟨q, hq, .inr (.inl rfl)⟩

variable {R T D : Type}

def counts (f : Framework R T D) (rt : MachineRuntime T D) : Counts where
  padding := rt.paddingSent
  total := rt.normalSent + rt.paddingSent
  allPadding := f.paddingSentPackets
  allTotal := f.paddingSentPackets + f.normalSentPackets

/-- What the check of the limits admits is legitimate when it comes to no early answer,
and otherwise when the state limit and the ratio of all packets are in order. -/
theorem belowLimitPadding_legitimate {f : Framework R T D} {rt : MachineRuntime T D} {m : Machine}
    (hf : isFraction f.maxPaddingFrac = true) (hm : isFraction m.maxPaddingFrac = true)
    (hguard : Counted m f.maxPaddingFrac (f.counts rt) ∨
      (BelowRatio f.maxPaddingFrac f.paddingSentPackets
        (f.paddingSentPackets + f.normalSentPackets) ∧ 0 < rt.stateLimit))
    (h : f.belowLimitPadding rt m = true) :
    Legitimate m f.maxPaddingFrac (f.counts rt) rt.stateLimit := by
  unfold belowLimitPadding at h
  dsimp only at h
  split at h
  · rename_i hbudget
    exact ⟨by simpa using h, .inl hbudget⟩
  rename_i hbudget
  split at h
  · -- no packets of the machine
    rename_i hearly
    simp only [Bool.and_eq_true, decide_eq_true_eq] at hearly
    have hcounted : ¬ Counted m f.maxPaddingFrac (f.counts rt) := by
      rintro (hb | ⟨hzero | htotal, _⟩)
      · exact hbudget hb
      · simp [hzero, Val.lt] at hearly
      · exact Nat.ne_of_gt htotal hearly.2
    obtain ⟨hratio, hlimit⟩ := hguard.resolve_left hcounted
    refine ⟨hlimit, .inr ⟨?_, hratio⟩⟩
    change BelowRatio _ _ (rt.normalSent + rt.paddingSent)
    rw [hearly.2]
    exact belowRatio_none _ hm
  split at h
  · exact absurd h (by simp)
  rename_i hratio
  have hown := belowRatio_of hm (Bool.eq_false_iff.mpr hratio)
  split at h
  · -- no packets at all
    rename_i hearly
    simp only [Bool.and_eq_true, decide_eq_true_eq] at hearly
    have hcounted : ¬ Counted m f.maxPaddingFrac (f.counts rt) := by
      rintro (hb | ⟨_, hzero | htotal⟩)
      · exact hbudget hb
      · simp [hzero, Val.lt] at hearly
      · exact Nat.ne_of_gt htotal hearly.2
    obtain ⟨hall, hlimit⟩ := hguard.resolve_left hcounted
    exact ⟨hlimit, .inr ⟨hown, hall⟩⟩
  split at h
  · exact absurd h (by simp)
  · rename_i hall
    exact ⟨by simpa using h, .inr ⟨hown, belowRatio_of hf (Bool.eq_false_iff.mpr hall)⟩⟩

/-- The states a machine's actions were scheduled from, with the limits then in force. -/
def scheduledBy (mi : Nat) (log : List Step) : List (Nat × Nat) :=
  log.filterMap fun
    | .scheduled x s limit => if x = mi then some (s, limit) else none
    | _ => none

theorem scheduledBy_append (mi : Nat) (v w : List Step) :
    scheduledBy mi (v ++ w) = scheduledBy mi v ++ scheduledBy mi w := List.filterMap_append

/-- Steps of other machines schedule nothing for this one. -/
theorem scheduledBy_others {mi : Nat} {w : List Step} (h : ∀ s ∈ w, s.machine ≠ mi) :
    scheduledBy mi w = [] := by
  refine List.filterMap_eq_nil_iff.mpr fun s hs => ?_
  cases s with
  | scheduled x st limit =>
    have hx : x ≠ mi := h _ hs
    simp [hx]
  | _ => rfl

variable [RngCore R]

/-- The padding of a machine is in order: on the counts `c` only legitimate padding is in
its place. -/
structure Padded (mi : Nat) (m : Machine) (c : Counts) (f : Framework R T D) : Prop where
  machine : f.machines[mi]? = some m
  counts : ∀ rt, f.runtime[mi]? = some rt → f.counts rt = c
  guard : Counted m f.maxPaddingFrac c ∨
    (BelowRatio f.maxPaddingFrac c.allPadding c.allTotal ∧ PositiveLimits R m ∧
      ∀ rt, f.runtime[mi]? = some rt → 0 < rt.stateLimit)
  slot : ∀ a, f.actions[mi]? = some (some a) → a.isPadding = true → ∃ s limit st,
    (scheduledBy mi f.log).getLast? = some (s, limit) ∧ m.states[s]? = some st ∧ st.pads ∧
      Legitimate m f.maxPaddingFrac c limit

namespace Padded

variable {mi : Nat} {m : Machine} {c : Counts} {f g : Framework R T D}

omit [RngCore R] in
theorem fixed_counts (h : g.fixed = f.fixed) {rt rt' : MachineRuntime T D}
    (ha : accounting rt' = accounting rt) : g.counts rt' = f.counts rt := by
  simp only [Framework.fixed, Prod.mk.injEq] at h
  simp only [accounting, Prod.mk.injEq] at ha
  simp only [Framework.counts, h, ha]

/-- A step that schedules nothing for the machine. -/
theorem keep (h : Padded mi m c f) (hfix : g.fixed = f.fixed)
    (hact : g.actions[mi]? = f.actions[mi]?) (hlog : scheduledBy mi g.log = scheduledBy mi f.log)
    (hrt : ∀ rt', g.runtime[mi]? = some rt' → ∃ rt, f.runtime[mi]? = some rt ∧
      accounting rt' = accounting rt ∧
      (¬ Counted m f.maxPaddingFrac c → PositiveLimits R m → 0 < rt.stateLimit →
        0 < rt'.stateLimit)) : Padded mi m c g := by
  have hfrac : g.maxPaddingFrac = f.maxPaddingFrac := congrArg (·.2.2.1) hfix
  have hmach : g.machines = f.machines := congrArg (·.1) hfix
  refine ⟨hmach ▸ h.machine, ?_, ?_, ?_⟩
  · intro rt' hrt'
    obtain ⟨rt, hrt, ha, _⟩ := hrt rt' hrt'
    rw [fixed_counts hfix ha, h.counts rt hrt]
  · rw [hfrac]
    by_cases hcounted : Counted m f.maxPaddingFrac c
    · exact .inl hcounted
    obtain ⟨hall, hpos, hlim⟩ := h.guard.resolve_left hcounted
    refine .inr ⟨hall, hpos, fun rt' hrt' => ?_⟩
    obtain ⟨rt, hrt, _, hkeep⟩ := hrt rt' hrt'
    exact hkeep hcounted hpos (hlim rt hrt)
  · rw [hact, hlog, hfrac]
    exact h.slot

/-- What other machines do. -/
theorem others (h : Padded mi m c f) {j : Nat} {w : List Step} {n : Nat → Nat} (hj : j ≠ mi)
    (ha : Apart j f g) (hw : Emits f g w (· = j) n) : Padded mi m c g := by
  refine h.keep ha.fixed (ha.others mi (Ne.symm hj)).2 ?_ ?_
  · have hnone : scheduledBy mi w = [] :=
      scheduledBy_others fun s hs hm => hj ((hw.who s hs).symm.trans hm)
    rw [hw.log, scheduledBy_append, hnone, List.append_nil]
  · intro rt' hrt'
    exact ⟨rt', (ha.others mi (Ne.symm hj)).1 ▸ hrt', rfl, fun _ _ => id⟩

/-- Nothing is scheduled yet. -/
theorem start {rt : MachineRuntime T D} (hmach : f.machines[mi]? = some m)
    (hrt : f.runtime[mi]? = some rt) (hslot : f.actions[mi]? = some none) (hc : f.counts rt = c)
    (hguard : Counted m f.maxPaddingFrac c ∨
      (BelowRatio f.maxPaddingFrac c.allPadding c.allTotal ∧ PositiveLimits R m ∧
        0 < rt.stateLimit)) : Padded mi m c f := by
  have hone {rt' : MachineRuntime T D} (hrt' : f.runtime[mi]? = some rt') : rt = rt' :=
    Option.some.inj (hrt.symm.trans hrt')
  refine ⟨hmach, fun rt' hrt' => hone hrt' ▸ hc, ?_, fun a ha => ?_⟩
  · exact hguard.imp_right fun ⟨hall, hpos, hlim⟩ => ⟨hall, hpos, fun _ hrt' => hone hrt' ▸ hlim⟩
  · simp [hslot] at ha

/-- A step of the machine itself, up to its scheduling. -/
theorem own (h : Padded mi m c f) (hf : Frame mi f g) {rt rt' : MachineRuntime T D}
    (hrt : f.runtime[mi]? = some rt) (hrt' : g.runtime[mi]? = some rt')
    (hact : g.actions = f.actions) (hlog : scheduledBy mi g.log = scheduledBy mi f.log)
    (hlim : ¬ Counted m f.maxPaddingFrac c → PositiveLimits R m → 0 < rt.stateLimit →
      0 < rt'.stateLimit) : Padded mi m c g := by
  refine h.keep hf.fixed (by rw [hact]) hlog fun rt1 hrt1 => ⟨rt, hrt, ?_, ?_⟩
  · simpa [hrt, hrt1] using hf.account
  · obtain rfl := Option.some.inj (hrt'.symm.trans hrt1)
    exact hlim

theorem enterState_limit {s : Nat} {rt rt' : MachineRuntime T D} {st : State}
    (hrt : f.runtime[mi]? = some rt) (h : (f.enterState mi rt s st).runtime[mi]? = some rt')
    (hlim : ∀ a, st.action = some a → ∀ rng : R, 0 < (a.sampleLimit rng).1)
    (hpos : 0 < rt.stateLimit) : 0 < rt'.stateLimit := by
  unfold Framework.enterState at h
  split at h
  · obtain rfl := Option.some.inj (hrt.symm.trans h)
    exact hpos
  · split at h
    all_goals
      rename_i hact
      simp only [Framework.setRuntime, set_getElem? hrt, Option.some.injEq] at h
      subst h
    · exact (by decide : 0 < stateLimitMax)
    · exact hlim _ hact _

theorem arrived (h : Padded mi m c f) {f1 : Framework R T D} {s : Nat} {event : Event}
    {rt rt' : MachineRuntime T D} {cur st : State} (hrt : f.runtime[mi]? = some rt)
    (hst : m.states[s]? = some st)
    (hin : f1 = (f.sampleNext mi event cur).arrive mi s rt st rt'.stateLimit)
    (hrt' : f1.runtime[mi]? = some rt') : Padded mi m c f1 := by
  refine h.own (Frame.arrived hrt hin) hrt hrt' (arrived_actions hin) ?_ ?_
  · rw [Emits.arrived_log hin, scheduledBy_append]
    exact List.append_nil _
  · intro _ hpos
    subst hin
    exact enterState_limit (f := (f.sampleNext mi event cur).note (.sampled mi s)) hrt hrt'
      (hpos st (List.mem_of_getElem? hst))

theorem counted (h : Padded mi m c f) {rt : MachineRuntime T D} {st : State}
    (hrt : f.runtime[mi]? = some rt) : Padded mi m c (f.applyCounters mi rt st).2 := by
  obtain ⟨a, b, hrt'⟩ := applyCounters_runtime st hrt
  exact h.own (Frame.applyCounters hrt) hrt hrt' rfl rfl fun _ _ => id

variable [Time.Duration D]

omit [RngCore R] in
theorem triggerAction_pads [RngCore R] {act : Action} {rng : R}
    (h : (triggerAction (D := D) mi act rng).1.isPadding = true) :
    ∃ b r t l, act = .sendPadding b r t l := by
  cases act with
  | sendPadding b r t l => exact ⟨b, r, t, l, rfl⟩
  | _ => simp [triggerAction, TriggerAction.isPadding] at h

theorem schedule_log (f : Framework R T D) (mi s limit : Nat) (st : State) :
    (f.schedule mi s limit st true).log = f.log ++ [.scheduled mi s limit] := by
  simp only [Framework.schedule, if_true, placeAction]
  split <;> rfl

theorem schedule (h : Padded mi m c f) {s limit : Nat} {st : State} {allowed : Bool}
    (hst : m.states[s]? = some st)
    (hlegit : allowed = true → st.pads → Legitimate m f.maxPaddingFrac c limit) :
    Padded mi m c (f.schedule mi s limit st allowed) := by
  have hframe := Frame.schedule f mi s limit st allowed
  have hfrac := hframe.maxPaddingFrac
  refine ⟨hframe.machines ▸ h.machine, ?_, ?_, ?_⟩
  · intro rt hrt
    rw [schedule_runtime] at hrt
    rw [fixed_counts hframe.fixed rfl, h.counts rt hrt]
  · rw [hfrac, schedule_runtime]
    exact h.guard
  · rw [hfrac]
    cases allowed with
    | false => exact h.slot
    | true =>
      intro a ha hpad
      have hlen := (List.getElem?_eq_some_iff.mp ha).1
      rw [hframe.actionsLength] at hlen
      have hpads : st.pads := by
        simp only [Framework.schedule, if_true, placeAction] at ha
        split at ha
        · simp [hlen] at ha
        · rename_i act hact
          obtain rfl : (triggerAction mi act f.rng).1 = a := by simpa [hlen] using ha
          obtain ⟨b, r, t, l, rfl⟩ := triggerAction_pads hpad
          exact ⟨b, r, t, l, hact⟩
      refine ⟨s, limit, st, ?_, hst, hpads, hlegit rfl hpads⟩
      rw [schedule_log, scheduledBy_append]
      simp [scheduledBy]

variable [Time.Instant T D]

/-- The limits that let a state schedule its padding. -/
theorem below_legitimate (h : Padded mi m c f) (hf : isFraction f.maxPaddingFrac = true)
    (hm : isFraction m.maxPaddingFrac = true) {rt : MachineRuntime T D} {st : State}
    (hrt : f.runtime[mi]? = some rt) (hst : m.states[rt.currentState]? = some st)
    (hbelow : f.belowActionLimits rt m = .ok true) (hpad : st.pads) :
    Legitimate m f.maxPaddingFrac c rt.stateLimit := by
  obtain ⟨b, r, t, l, hact⟩ := hpad
  have hbelow' : f.belowLimitPadding rt m = true := by
    simpa [belowActionLimits, Machine.stateAt, at?_ok.mpr hst, hact] using hbelow
  have hc := h.counts rt hrt
  rw [← hc]
  refine belowLimitPadding_legitimate hf hm ?_ hbelow'
  rw [hc]
  apply h.guard.imp_right
  intro hcounts
  obtain ⟨hall, _, hlim⟩ := hcounts
  rw [← hc] at hall
  exact ⟨hall, hlim rt hrt⟩

end Padded

variable [Time.Duration D] [Time.Instant T D]

theorem Moves.padded {mi : Nat} {m : Machine} {c : Counts} {f g : Framework R T D} {event : Event}
    {change : StateChange} (hmove : Moves f mi event change g) (hm : isFraction m.maxPaddingFrac = true)
    (hf : isFraction f.maxPaddingFrac = true) (h : Padded mi m c f) : Padded mi m c g := by
  have hframe := hmove.frame
  induction hmove with
  | ended hrt hend =>
    exact h.own hframe hrt hrt rfl (by simp [note, scheduledBy]) fun _ _ => id
  | idle hrt hne hcur hs =>
    exact h.own hframe hrt hrt rfl (by simp [sampleNext, note, scheduledBy]) fun _ _ => id
  | stop hrt hne hcur hs =>
    exact h.own hframe hrt (set_getElem? hrt) rfl
      (by simp [setRuntime, sampleNext, note, scheduledBy]) fun _ _ => id
  | signal hrt hne hcur hs =>
    exact h.own hframe hrt hrt rfl (by simp [sampleNext, note, scheduledBy]) fun _ _ => id
  | enter hrt hne hcur hs hreal hst hin hrt' hm' hbelow hz hlen =>
    replace hst := hst.machine h.machine
    have h1 := h.arrived hrt hst hin hrt'
    rw [← (Frame.arrived hrt hin).maxPaddingFrac] at hf
    obtain rfl := Option.some.inj (h1.machine.symm.trans hm')
    refine (h1.counted hrt').schedule hst fun hallow hpads => ?_
    exact h1.below_legitimate hf hm hrt' (arrived_current hrt hin hrt' ▸ hst) (hallow ▸ hbelow)
      hpads
  | chain hrt hne hcur hs hreal hst hin hrt' hm' hbelow hz hnest ha hafter ih =>
    replace hst := hst.machine h.machine
    have h1 := h.arrived hrt hst hin hrt'
    rw [← (Frame.arrived hrt hin).maxPaddingFrac] at hf
    obtain rfl := Option.some.inj (h1.machine.symm.trans hm')
    -- the nested transition has scheduled its own padding, all of it legitimate
    have h2 := ih hf (h1.counted hrt') hnest.frame
    refine h2.schedule hst fun hallow hpads => ?_
    rw [Bool.and_eq_true] at hallow
    rw [hnest.frame.maxPaddingFrac]
    exact h1.below_legitimate hf hm hrt' (arrived_current hrt hin hrt' ▸ hst)
      (hallow.2 ▸ hbelow) hpads

/-- The packet counts of machine `mi` after an event. -/
def countsAfter (f : Framework R T D) (e : TriggerEvent) (mi : Nat) (rt : MachineRuntime T D) :
    Counts :=
  let c := f.counts rt
  match e with
  | .normalSent => { c with total := c.total + 1, allTotal := c.allTotal + 1 }
  | .paddingSent machine =>
    let own := if machine = mi then 1 else 0
    ⟨c.padding + own, c.total + own, c.allPadding + 1, c.allTotal + 1⟩
  | _ => c

omit [RngCore R] in
theorem recorded_counts (f : Framework R T D) (e : TriggerEvent) (mi : Nat)
    (rt : MachineRuntime T D) (blocked : D) :
    (f.recorded e).counts (if e.concerns mi then rt.recorded e blocked else rt) =
      f.countsAfter e mi rt := by
  cases e with
  | normalSent =>
    simp [recorded, TriggerEvent.concerns, MachineRuntime.recorded, countsAfter, counts]
    omega
  | paddingSent machine =>
    by_cases hm : machine = mi <;>
      simp [recorded, TriggerEvent.concerns, MachineRuntime.recorded, countsAfter, counts, hm] <;>
      omega
  | blockingBegin machine =>
    simp only [recorded]
    split <;> rfl
  | blockingEnd =>
    simp only [recorded, MachineRuntime.recorded, TriggerEvent.concerns, countsAfter, if_true]
    split <;> split <;> rfl
  | _ => simp [recorded, MachineRuntime.recorded, countsAfter]

/-- On the counts after the event there is no early answer, or one that is right: the ratio
of all packets and every limit in reach are in order. -/
def PaddingGuard (f : Framework R T D) (e : TriggerEvent) (mi : Nat) (m : Machine)
    (rt : MachineRuntime T D) : Prop :=
  Counted m f.maxPaddingFrac (f.countsAfter e mi rt) ∨
    (BelowRatio f.maxPaddingFrac (f.countsAfter e mi rt).allPadding
        (f.countsAfter e mi rt).allTotal ∧
      PositiveLimits R m ∧ (if e.limits mi then 1 else 0) < rt.stateLimit)

omit [Time.Instant T D] [RngCore R] in
theorem recorded_limit (rt : MachineRuntime T D) (e : TriggerEvent) (blocked : D) :
    (rt.recorded e blocked).stateLimit = rt.stateLimit := by
  cases e with
  | blockingEnd =>
    simp only [MachineRuntime.recorded]
    split <;> rfl
  | _ => rfl

/-- The machine's own turn, when nothing is scheduled for it yet. -/
theorem Turn.padded {mi : Nat} {m : Machine} {f f' : Framework R T D} {e : TriggerEvent}
    {blocked : D} {rt : MachineRuntime T D} (ht : Turn e blocked f mi f')
    (hm : isFraction m.maxPaddingFrac = true) (hf : isFraction f.maxPaddingFrac = true)
    (hmach : f.machines[mi]? = some m) (hrt : f.runtime[mi]? = some rt)
    (hslot : f.actions[mi]? = some none) {c : Counts}
    (hc : c = f.counts (if e.concerns mi then rt.recorded e blocked else rt))
    (hguard : Counted m f.maxPaddingFrac c ∨
      (BelowRatio f.maxPaddingFrac c.allPadding c.allTotal ∧ PositiveLimits R m ∧
        (if e.limits mi then 1 else 0) < rt.stateLimit)) : Padded mi m c f' := by
  have hmoved {g : Framework R T D} {change : StateChange} (hcon : e.concerns mi = true)
      (hm0 : Moves (f.setRuntime mi (rt.recorded e blocked)) mi e.event change g) :
      Padded mi m c g := by
    refine hm0.padded hm hf (.start hmach (set_getElem? hrt) hslot (by simp [hc, hcon]; rfl) ?_)
    rw [recorded_limit]
    exact hguard.imp_right fun ⟨hall, hpos, hlim⟩ => ⟨hall, hpos, Nat.zero_lt_of_lt hlim⟩
  -- an unchanged state keeps its limit, and losing one leaves some of what the guard wants
  have hleft {g : Framework R T D} {rt' : MachineRuntime T D} (hl : e.limits mi = true)
      (hm0 : Moves (f.setRuntime mi (rt.recorded e blocked)) mi e.event .unchanged g)
      (hrt' : g.runtime[mi]? = some rt') (hnot : ¬ Counted m g.maxPaddingFrac c) :
      0 < rt'.stateLimit - 1 := by
    rw [show g.maxPaddingFrac = f.maxPaddingFrac from hm0.frame.maxPaddingFrac] at hnot
    obtain ⟨rt1, hrt1, _, hsame⟩ := hm0.unchanged rfl (set_getElem? hrt)
    obtain rfl := Option.some.inj (hrt'.symm.trans hrt1)
    have hlim := (hguard.resolve_left hnot).2.2
    rw [recorded_limit] at hsame
    simp only [hl, if_true] at hlim
    omega
  cases ht with
  | apart hcon =>
    refine .start hmach hrt hslot (by simp [hc, hcon]) ?_
    exact hguard.imp_right fun ⟨hall, hpos, hlim⟩ => ⟨hall, hpos, Nat.zero_lt_of_lt hlim⟩
  | moved hcon hrt0 hm0 hrt' hkeep =>
    obtain rfl := Option.some.inj (hrt.symm.trans hrt0)
    exact hmoved hcon hm0
  | used hcon hrt0 hl hm0 hrt' hne hst hu =>
    obtain rfl := Option.some.inj (hrt.symm.trans hrt0)
    exact (hmoved hcon hm0).own (Frame.setRuntime hrt' rfl) hrt' (set_getElem? hrt') rfl rfl
      fun hnot _ _ => hleft hl hm0 hrt' hnot
  | reached hcon hrt0 hl hm0 hrt' hne hst hu hlen hm' =>
    obtain rfl := Option.some.inj (hrt.symm.trans hrt0)
    have hp := hmoved hcon hm0
    have hgf := hm0.frame.maxPaddingFrac.trans
      (rfl : (f.setRuntime mi _).maxPaddingFrac = f.maxPaddingFrac)
    have hcounts := hp.counts _ hrt'
    refine hm'.padded hm (hgf ▸ hf :) (.start hp.machine (set_getElem? hrt') ?_ hcounts
      (Classical.or_iff_not_imp_left.mpr fun hnot => ?_))
    · simp [cleared, hlen]
    · obtain ⟨hall, hpos, _⟩ := hp.guard.resolve_left hnot
      exact ⟨hall, hpos, hleft hl hm0 hrt' hnot⟩

omit [RngCore R] in
theorem recorded_frac (f : Framework R T D) (e : TriggerEvent) :
    (f.recorded e).maxPaddingFrac = f.maxPaddingFrac :=
  recorded_apart Framework.maxPaddingFrac (fun _ _ _ _ _ _ => rfl) f e

/-- After the turns of all machines, the padding of the machine is in order. -/
theorem processEvent_padded {mi : Nat} {m : Machine} {f f' : Framework R T D} {e : TriggerEvent}
    {rt : MachineRuntime T D} (hm : isFraction m.maxPaddingFrac = true)
    (hf : isFraction f.maxPaddingFrac = true) (hmach : f.machines[mi]? = some m)
    (hrt : f.runtime[mi]? = some rt) (hslot : f.actions[mi]? = some none)
    (hguard : PaddingGuard f e mi m rt) (h : f.processEvent e = .ok f') :
    Padded mi m (f.countsAfter e mi rt) f' ∧ f'.maxPaddingFrac = f.maxPaddingFrac := by
  refine processEvent_own
    (P := fun g => g.maxPaddingFrac = f.maxPaddingFrac ∧ g.fixed = (f.recorded e).fixed ∧
      g.runtime[mi]? = some rt ∧ g.actions[mi]? = some none)
    (Q := fun g => Padded mi m (f.countsAfter e mi rt) g ∧ g.maxPaddingFrac = f.maxPaddingFrac)
    (List.getElem?_eq_some_iff.mp hrt).1 ?_ ?_ ?_ ?_ h
  · intro i g g' hi hg hturn
    obtain ⟨hfrac, hfix, hrt', hact⟩ := hg
    have hothers := hturn.apart_of.others mi hi
    exact ⟨hturn.apart_of.maxPaddingFrac.trans hfrac, hturn.apart_of.fixed.trans hfix,
      hothers.1.trans hrt', hothers.2.trans hact⟩
  · intro g g' hg hturn
    obtain ⟨hfrac, hfix, hrt', hact⟩ := hg
    refine ⟨?_, hturn.apart_of.maxPaddingFrac.trans hfrac⟩
    refine hturn.padded hm (hfrac ▸ hf) ?_ hrt' hact ?_ (hfrac ▸ hguard)
    · have hmachines : g.machines = f.machines :=
        (congrArg (·.1) hfix).trans (congrArg (·.1) (recorded_shape f e))
      exact hmachines ▸ hmach
    · rw [Padded.fixed_counts hfix rfl, recorded_counts]
  · intro i g g' hi hg hturn
    obtain ⟨w, hw⟩ := hturn.emits
    exact ⟨hg.1.others (Ne.symm hi) hturn.apart_of (hw.mono (fun _ hx => hx.1) fun _ => rfl),
      hturn.apart_of.maxPaddingFrac.trans hg.2⟩
  · rw [recorded_runtime, recorded_actions]
    exact ⟨recorded_frac f e, rfl, hrt, hslot⟩

/-- The padding that a call with one event returns for a machine is legitimate, on the
packet counts after the event. -/
theorem padding_legitimate {mi : Nat} {m : Machine} {f f' : Framework R T D} {e : TriggerEvent}
    {now : T} {actions : List (TriggerAction D)} {rt : MachineRuntime T D} {a : TriggerAction D}
    (hm : isFraction m.maxPaddingFrac = true) (hf : isFraction f.maxPaddingFrac = true)
    (hmach : f.machines[mi]? = some m) (hrt : f.runtime[mi]? = some rt)
    (hguard : PaddingGuard f e mi m rt)
    (h : f.triggerEvents [e] now = .ok (actions, f')) (ha : a ∈ actions)
    (hpad : a.isPadding = true) (hfor : a.machine = mi) :
    ∃ s limit st rt', (scheduledBy mi f'.log).getLast? = some (s, limit) ∧
      m.states[s]? = some st ∧ st.pads ∧ f'.runtime[mi]? = some rt' ∧
      f'.counts rt' = f.countsAfter e mi rt ∧
      Legitimate m f.maxPaddingFrac (f'.counts rt') limit := by
  obtain ⟨f1, h1, hd, hacts⟩ := triggerEvents_ok h
  replace h1 : (f.startCall now).processEvent e = .ok f1 := by
    simpa [processEvents, bind_ok] using h1
  subst hfor
  have hslot := returned_slot h ha
  obtain ⟨_, hruntimes, hactions⟩ := shape_eq (triggerEvents_shape h)
  have hlen : a.machine < f.actions.length := by
    rw [← hactions]
    exact (List.getElem?_eq_some_iff.mp hslot).1
  have hempty : (f.startCall now).actions[a.machine]? = some none := by
    simp [startCall, hlen]
  obtain ⟨hp, hfrac⟩ := processEvent_padded hm (f := f.startCall now) hf hmach hrt hempty hguard h1
  have hend := deliverSignal_keeps
    (P := fun g => g.maxPaddingFrac = f.maxPaddingFrac ∧
      Padded a.machine m (f.countsAfter e a.machine rt) g)
    ?_ ?_ ⟨hfrac, hp⟩ hd
  · obtain ⟨hfrac', hp'⟩ := hend
    obtain ⟨s, limit, st, hlast, hst, hpads, hlegit⟩ := hp'.slot a hslot hpad
    have hmi : a.machine < f'.runtime.length := by
      rw [hruntimes]
      exact (List.getElem?_eq_some_iff.mp hrt).1
    have hrt' := List.getElem?_eq_getElem hmi
    have hcounts := hp'.counts _ hrt'
    exact ⟨s, limit, st, _, hlast, hst, hpads, hrt', hcounts, hcounts ▸ hfrac' ▸ hlegit⟩
  · intro g hkept
    exact ⟨hkept.1, hkept.2.keep rfl rfl rfl fun rt' hrt' => ⟨rt', hrt', rfl, fun _ _ => id⟩⟩
  · intro g mi c g' hkept hmove
    obtain ⟨hg, hp⟩ := hkept
    refine ⟨hmove.frame.maxPaddingFrac.trans hg, ?_⟩
    by_cases hj : mi = a.machine
    · subst hj
      exact hmove.padded hm (hg ▸ hf) hp
    · obtain ⟨w, hw⟩ := hmove.emits
      exact hp.others hj hmove.frame.toApart hw

/-- A machine that pads when a packet arrives, up to a limit of the padding state. -/
def padder (budget : Nat) (frac : F64) (limit : Option Dist) : Machine :=
  let now : Dist := ⟨.uniform ⟨0⟩ ⟨0⟩, ⟨0⟩, ⟨0⟩⟩
  ⟨budget, frac, 0, ⟨0⟩, [
    .new fun
      | .tunnelRecv => certain 1
      | _ => [],
    { State.new (fun _ => []) with action := some (.sendPadding false false now limit) }]⟩

/-- With a ratio limit but no packets yet, padding is scheduled at a state limit of zero. -/
theorem padding_above_limit :
    ∃ f f' : Framework Unit Instant Duration,
      play [padder 0 (Flt.ofRat (1 / 2)) (some ⟨.uniform ⟨0⟩ ⟨0⟩, ⟨0⟩, ⟨0⟩⟩)] [] = some f ∧
      Reachable f ∧
      f.triggerEvents [.tunnelRecv] 0 = .ok ([.sendPadding 0 false false 0], f') ∧
      (scheduledBy 0 f'.log).getLast? = some (1, 0) := by
  have hrun : ((play [padder 0 (Flt.ofRat (1 / 2)) (some ⟨.uniform ⟨0⟩ ⟨0⟩, ⟨0⟩, ⟨0⟩⟩)] []).bind
      fun f => (f.triggerEvents [.tunnelRecv] 0).toOption.map fun r =>
        (r.1, (scheduledBy 0 r.2.log).getLast?)) =
      some ([.sendPadding 0 false false 0], some (1, 0)) := by decide +kernel
  simp only [Option.bind_eq_some_iff, Option.map_eq_some_iff, toOption_eq_some,
    Prod.mk.injEq] at hrun
  obtain ⟨f, hf, ⟨actions, f'⟩, ht, rfl, hlast⟩ := hrun
  exact ⟨f, f', hf, play_reachable hf, ht, hlast⟩

/-- Padding within the budget of a machine without ratio limits. -/
theorem budgeted_padding_legitimate :
    ∃ f f' : Framework Unit Instant Duration, play [padder 1 ⟨0⟩ none] [] = some f ∧
      f.triggerEvents [.tunnelRecv] 0 = .ok ([.sendPadding 0 false false 0], f') ∧
      ∃ s limit st rt', (scheduledBy 0 f'.log).getLast? = some (s, limit) ∧
        (padder 1 ⟨0⟩ none).states[s]? = some st ∧ st.pads ∧ f'.runtime[0]? = some rt' ∧
        f'.counts rt' = ⟨0, 0, 0, 0⟩ ∧
        Legitimate (padder 1 ⟨0⟩ none) f.maxPaddingFrac (f'.counts rt') limit := by
  have hrun : ((play [padder 1 ⟨0⟩ none] []).bind fun f =>
      (f.triggerEvents [.tunnelRecv] 0).toOption.bind fun r => f.runtime[0]?.map fun rt =>
        (f.machines[0]?, isFraction f.maxPaddingFrac, f.countsAfter .tunnelRecv 0 rt, r.1)) =
      some (some (padder 1 ⟨0⟩ none), true, ⟨0, 0, 0, 0⟩, [.sendPadding 0 false false 0]) := by
    decide +kernel
  simp only [Option.bind_eq_some_iff, Option.map_eq_some_iff, toOption_eq_some,
    Prod.mk.injEq] at hrun
  obtain ⟨f, hf, ⟨actions, f'⟩, ht, rt, hrt, hmach, hfrac, hcounts, rfl⟩ := hrun
  have hguard : PaddingGuard f .tunnelRecv 0 (padder 1 ⟨0⟩ none) rt := .inl (.inl (by
    rw [hcounts]
    decide))
  have hlegit := padding_legitimate (by decide +kernel) hfrac hmach hrt hguard ht
    List.mem_cons_self rfl rfl
  rw [hcounts] at hlegit
  exact ⟨f, f', hf, ht, hlegit⟩

end Framework

end Maybenot

import Mathlib.Algebra.BigOperators.Fin
import Maybenot.Lib.Ledger
import Maybenot.Proofs.Requests

namespace Maybenot
open Lib

namespace Framework

variable {R T D : Type}

/-- The padding of a framework as a ledger with one account for each machine. -/
def Use.ledger (n : Nat) (s : Use R T D) : Ledger (Fin n) where
  spent i := (s.framework.runtime[i.val]?).elim 0 (·.paddingSent)
  asked i := s.asked i
  total := s.framework.paddingSentPackets
  earned := s.framework.normalSentPackets

/-- The budget of a machine, one packet at least. -/
def padBudget (machines : List Machine) (i : Fin machines.length) : Nat :=
  max (machines.get i).allowedPaddingPackets 1

/-- A ratio limit on the padding of all machines, if set, is a positive number. -/
theorem fraction_positive {x : F64} (h : isFraction x = true)
    (hset : (Val.fin 0).lt x.val = true) : ∃ q, x.val = .fin q ∧ 0 < q := by
  unfold isFraction at h
  cases hv : x.val with
  | nan => simp [hv] at hset
  | inf neg => cases neg <;> simp [hv, Val.lt, Val.le] at hset h
  | fin q =>
    rw [hv] at hset
    exact ⟨q, rfl, of_decide_eq_true hset⟩

/-- The check of the limits lets a machine pad only within its budget or the common ratio. -/
theorem belowLimitPadding_granted {f : Framework R T D} {rt : MachineRuntime T D} {m : Machine}
    {q : ℚ} (hv : f.maxPaddingFrac.val = .fin q) (hq : 0 < q)
    (h : f.belowLimitPadding rt m = true) :
    rt.paddingSent < max m.allowedPaddingPackets 1 ∨
      (f.paddingSentPackets : ℚ) ≤ q * (f.paddingSentPackets + f.normalSentPackets) := by
  have hset : (Val.fin 0).lt f.maxPaddingFrac.val = true := by
    rw [hv]
    exact decide_eq_true hq
  unfold belowLimitPadding at h
  dsimp only at h
  split at h
  · rename_i hbudget
    exact .inl (lt_max_of_lt_left hbudget)
  split at h
  · rename_i hnone
    left
    have htotal : rt.normalSent + rt.paddingSent = 0 := by
      simpa using (Bool.and_eq_true_iff.mp hnone).2
    have hzero : rt.paddingSent = 0 := by omega
    rw [hzero]
    exact lt_max_of_lt_right Nat.zero_lt_one
  split at h
  · exact absurd h (by simp)
  rw [hset] at h
  simp only [Bool.true_and, decide_eq_true_eq] at h
  right
  split at h
  · rename_i htotal
    have hzero : f.paddingSentPackets = 0 := by omega
    rw [hzero, Nat.cast_zero, zero_add]
    exact mul_nonneg hq.le (Nat.cast_nonneg _)
  rename_i htotal
  split at h
  · exact absurd h (by simp)
  rename_i hratio
  have hpos : (0 : ℚ) < f.paddingSentPackets + f.normalSentPackets := by
    have hn : 0 < f.paddingSentPackets + f.normalSentPackets := Nat.pos_of_ne_zero htotal
    exact_mod_cast hn
  push_cast at hratio
  simp only [hv, Val.div, hpos.ne', if_false, Val.le, decide_eq_true_eq, not_le] at hratio
  rw [div_lt_iff₀ hpos] at hratio
  exact hratio.le

/-- What stays of a framework in use, and the requests are those of its machines. -/
structure Fixed (ms : List Machine) (frac : F64) (s : Use R T D) : Prop where
  machines : s.framework.machines = ms
  frac : s.framework.maxPaddingFrac = frac
  runtime : s.framework.runtime.length = ms.length
  actions : s.framework.actions.length = ms.length
  asked : ∀ mi, s.asked mi → mi < ms.length

variable [RngCore R] [Time.Duration D]

theorem Use.Initial.fixed {s : Use R T D} (h : Use.Initial s) :
    Fixed s.framework.machines s.framework.maxPaddingFrac s ∧
      isFraction s.framework.maxPaddingFrac = true ∧
      (s.ledger s.framework.machines.length).Empty := by
  obtain ⟨⟨machines, padding, blocking, now, rng, hnew⟩, hnone⟩ := h
  obtain ⟨hwf, _, hm⟩ := new_wellFormed hnew
  obtain ⟨hfrac, _, _, _, _, hfresh⟩ := new_ok.mp hnew
  refine ⟨⟨rfl, rfl, hwf.runtime, hwf.actions, fun mi hmi => absurd hmi (hnone mi)⟩, ?_, ?_⟩
  · rw [hfresh]
    exact hfrac
  have hcounts : Counts s.framework [] := Initial.counts ⟨_, _, _, _, _, hnew⟩
  refine ⟨fun i => ?_, fun i => hnone i, hcounts.padding⟩
  obtain ⟨rt, hrt⟩ := exists_getElem? (show i.val < s.framework.runtime.length by
    rw [hwf.runtime]
    exact i.isLt)
  change (s.framework.runtime[i.val]?).elim 0 (·.paddingSent) = 0
  rw [hrt]
  exact (hcounts.machines i rt hrt).2

/-- A new framework bounds its machines. -/
theorem Use.Initial.bounded {s : Use R T D} (h : Use.Initial s) {mi : Nat} {m : Machine} (q : ℚ)
    (hm : s.framework.machines[mi]? = some m) : Bounded s mi m q := by
  obtain ⟨⟨hmachines, _, hruntime, hslots, _⟩, _, _⟩ := h.fixed
  have hmi := (List.getElem?_eq_some_iff.mp hm).1
  obtain ⟨rt, hrt⟩ := exists_getElem? (hruntime ▸ hmi)
  have hzero : rt.paddingSent = 0 := (h.1.counts.machines mi rt hrt).2
  refine ⟨hm, ⟨rt, hrt, .inl ?_, fun hask => absurd hask (h.2 mi)⟩, hslots ▸ hmi⟩
  rw [hzero]
  exact Nat.zero_le _

variable [Time.Instant T D]

/-- No call changes the machines or the ratio limit of all. -/
theorem call_rest {f f' : Framework R T D} {e : TriggerEvent} {now : T}
    {actions : List (TriggerAction D)} (h : f.triggerEvents [e] now = .ok (actions, f')) :
    f'.machines = f.machines ∧ f'.maxPaddingFrac = f.maxPaddingFrac := by
  have hfixed := call_fixed h
  simp only [Framework.fixed, Prod.mk.injEq] at hfixed
  have hfrac : ((f.startCall now).recorded e).maxPaddingFrac = f.maxPaddingFrac :=
    recorded_apart (fun g : Framework R T D => g.maxPaddingFrac) (fun _ _ _ _ _ _ => rfl) _ e
  exact ⟨(shape_eq (triggerEvents_shape h)).1, hfixed.2.2.1.trans hfrac⟩

theorem run_rest {f f' : Framework R T D} {reports : List (TriggerEvent × T)}
    {actions : List (List (TriggerAction D))}
    (h : f.run (reports.map fun x => ([x.1], x.2)) = .ok (actions, f')) :
    f'.machines = f.machines ∧ f'.maxPaddingFrac = f.maxPaddingFrac := by
  induction reports generalizing f actions with
  | nil =>
    obtain ⟨_, rfl⟩ := Prod.mk.inj (pure_ok.mp h)
    exact ⟨rfl, rfl⟩
  | cons x xs ih =>
    simp only [List.map_cons, Framework.run, bind_ok] at h
    obtain ⟨⟨first, f1⟩, hcall, ⟨rest, f2⟩, hrest, h⟩ := h
    obtain ⟨_, rfl⟩ := Prod.mk.inj (pure_ok.mp h)
    obtain ⟨hmachines, hfrac⟩ := ih hrest
    obtain ⟨hmachines', hfrac'⟩ := call_rest hcall
    exact ⟨hmachines.trans hmachines', hfrac.trans hfrac'⟩

theorem Fixed.step {machines : List Machine} {frac : F64} {s s' : Use R T D}
    (h : Fixed machines frac s) (hs : Obeys s s') : Fixed machines frac s' := by
  obtain ⟨e, now, actions, hcall, _, hasked⟩ := hs
  obtain ⟨hm, hr, ha⟩ := shape_eq (triggerEvents_shape hcall)
  refine ⟨hm.trans h.machines, (call_rest hcall).2.trans h.frac, hr.trans h.runtime,
    ha.trans h.actions, fun mi hmi => ?_⟩
  rcases hasked mi hmi with ⟨a, hmem, _, rfl⟩ | ⟨hold, _⟩
  · have hslot := (List.getElem?_eq_some_iff.mp (returned_slot hcall hmem)).1
    rwa [ha, h.actions] at hslot
  · exact h.asked mi hold

/-- What was asked for was granted. -/
theorem Obeys.granted {machines : List Machine} {frac : F64} {q : ℚ} {s s' : Use R T D}
    (hv : frac.val = .fin q) (hq : 0 < q) (h : Fixed machines frac s) {e : TriggerEvent} {now : T}
    {actions : List (TriggerAction D)}
    (hcall : s.framework.triggerEvents [e] now = .ok (actions, s'.framework))
    {i : Fin machines.length} (hask : ∃ a ∈ actions, a.isPadding = true ∧ a.machine = i) :
    (s'.ledger machines.length).Granted (padBudget machines) q i := by
  obtain ⟨a, hmem, hpads, hfor⟩ := hask
  have hslot := returned_slot hcall hmem
  rw [hfor] at hslot
  obtain ⟨rt, hrt⟩ := exists_getElem? (show i.val < s.framework.runtime.length by
    rw [h.runtime]
    exact i.isLt)
  have hadmits := call_admits hrt (by rw [h.actions]; exact i.isLt) hcall
  obtain ⟨rt1, m1, st, act, rng, hacc, hm1, hst, hact, hbelow, rfl⟩ := hadmits.slot a hslot
  obtain ⟨b, r, t, l, rfl⟩ := Padded.triggerAction_pads hpads
  have hlimit : s'.framework.belowLimitPadding rt1 m1 = true := by
    simpa [belowActionLimits, Machine.stateAt, at?_ok.mpr hst, hact] using hbelow
  obtain ⟨rt', hrt', hsame⟩ := Option.map_eq_some_iff.mp hadmits.account
  have hpad : rt'.paddingSent = rt1.paddingSent := congrArg (·.1) (hsame.trans hacc.symm)
  have hfixed := h.machines
  have hmachine : m1 = machines.get i := by
    have hshape := (shape_eq (triggerEvents_shape hcall)).1
    rw [hshape, hfixed, List.getElem?_eq_getElem i.isLt] at hm1
    exact (Option.some.inj hm1).symm
  have hfrac : s'.framework.maxPaddingFrac.val = .fin q := by
    have hfix := call_fixed hcall
    simp only [Framework.fixed, Prod.mk.injEq] at hfix
    rw [hfix.2.2.1, recorded_apart (fun g : Framework R T D => g.maxPaddingFrac)
      (fun _ _ _ _ _ _ => rfl) _ e]
    exact (congrArg Flt.val h.frac).trans hv
  rcases belowLimitPadding_granted hfrac hq hlimit with hbudget | hratio
  · left
    change (s'.framework.runtime[i.val]?).elim 0 (·.paddingSent) < _
    rw [hrt']
    change rt'.paddingSent < _
    rw [hpad, padBudget, ← hmachine]
    exact hbudget
  · exact .inr hratio

/-- A step of the protocol is one of the ledger. -/
theorem Obeys.ledger {machines : List Machine} {frac : F64} {q : ℚ} {s s' : Use R T D}
    (hv : frac.val = .fin q) (hq : 0 < q) (h : Fixed machines frac s) (hs : Obeys s s') :
    Ledger.Step (padBudget machines) q (s.ledger machines.length)
      (s'.ledger machines.length) := by
  obtain ⟨e, now, actions, hcall, hsent, hasked⟩ := hs
  have hfixed := call_fixed hcall
  simp only [Framework.fixed, Prod.mk.injEq] at hfixed
  obtain ⟨_, _, _, hnormal, hpadding, _⟩ := hfixed
  have hspent (i : Fin machines.length) : (e ≠ .paddingSent i →
      (s'.ledger machines.length).spent i = (s.ledger machines.length).spent i) ∧
      (e = .paddingSent i →
        (s'.ledger machines.length).spent i = (s.ledger machines.length).spent i + 1) := by
    obtain ⟨rt, hrt⟩ := exists_getElem? (show i.val < s.framework.runtime.length by
      rw [h.runtime]
      exact i.isLt)
    have hadmits := call_admits hrt (by rw [h.actions]; exact i.isLt) hcall
    obtain ⟨rt', hrt', hacc⟩ := Option.map_eq_some_iff.mp hadmits.account
    simp only [accounting, Prod.mk.injEq] at hacc
    obtain ⟨_, hkeep, hone⟩ := recorded_packets rt e i (s.framework.startCall now).blockedFor
    rw [← hacc.1] at hkeep hone
    change (e ≠ _ → (s'.framework.runtime[i.val]?).elim 0 (·.paddingSent) =
      (s.framework.runtime[i.val]?).elim 0 (·.paddingSent)) ∧ (e = _ →
      (s'.framework.runtime[i.val]?).elim 0 (·.paddingSent) =
        (s.framework.runtime[i.val]?).elim 0 (·.paddingSent) + 1)
    rw [hrt, hrt']
    exact ⟨hkeep, fun he => (hone he).1⟩
  have hrequests (i : Fin machines.length) (hi : (s'.ledger machines.length).asked i) :
      (s'.ledger machines.length).Granted (padBudget machines) q i ∨
        (s.ledger machines.length).asked i ∧ e ≠ .paddingSent i :=
    (hasked i hi).imp (Obeys.granted hv hq h hcall) id
  by_cases he : ∃ mi, e = .paddingSent mi
  · obtain ⟨mi, rfl⟩ := he
    let i : Fin machines.length := ⟨mi, h.asked mi (hsent mi rfl)⟩
    refine .spend i (hsent mi rfl) ?_ hpadding hnormal ?_
    · funext j
      by_cases hj : j = i
      · rw [hj, Function.update_self]
        exact (hspent i).2 rfl
      · rw [Function.update_of_ne hj]
        refine (hspent j).1 fun hsame => hj ?_
        exact Fin.ext (TriggerEvent.paddingSent.inj hsame).symm
    · intro j hj
      rcases hrequests j hj with hgranted | ⟨hold, hne⟩
      · exact .inr hgranted
      · refine .inl ⟨hold, fun hsame => hne ?_⟩
        rw [hsame]
  · refine .earn ?_ ?_ ?_ ?_
    · funext j
      exact (hspent j).1 fun hsame => he ⟨j, hsame⟩
    · change s'.framework.paddingSentPackets = s.framework.paddingSentPackets
      rw [hpadding]
      cases e with
      | paddingSent mi => exact absurd ⟨mi, rfl⟩ he
      | blockingBegin | blockingEnd =>
        simp only [recorded]
        split <;> rfl
      | _ => rfl
    · change s.framework.normalSentPackets ≤ s'.framework.normalSentPackets
      rw [hnormal]
      cases e with
      | normalSent => exact Nat.le_succ _
      | blockingBegin | blockingEnd =>
        simp only [recorded]
        split <;> exact Nat.le_refl _
      | _ => exact Nat.le_refl _
    · intro j hj
      exact (hrequests j hj).symm.imp (·.1) id

/-- A run of the protocol is one of the ledger. -/
theorem reach_ledger {s : Use R T D} (h : Reach Use.Initial Obeys s) :
    ∃ ms frac, Fixed ms frac s ∧ isFraction frac = true ∧ ∀ q, frac.val = .fin q → 0 < q →
      Reach Ledger.Empty (Ledger.Step (padBudget ms) q) (s.ledger ms.length) := by
  refine h.invariant (P := fun s => ∃ ms frac, Fixed ms frac s ∧ isFraction frac = true ∧
    ∀ q, frac.val = .fin q → 0 < q →
      Reach Ledger.Empty (Ledger.Step (padBudget ms) q) (s.ledger ms.length)) ?_ ?_
  · intro s hs
    obtain ⟨hfixed, hfrac, hempty⟩ := hs.fixed
    exact ⟨_, _, hfixed, hfrac, fun q _ _ => .start hempty⟩
  · rintro s s' ⟨ms, frac, hfixed, hfrac, hreach⟩ hstep
    exact ⟨ms, frac, hfixed.step hstep, hfrac, fun q hv hq =>
      .next (hreach q hv hq) (hstep.ledger hv hq hfixed)⟩

theorem sum_padBudget (ms : List Machine) :
    ∑ i, padBudget ms i = (ms.map fun m => max m.allowedPaddingPackets 1).sum := by
  rw [← Fin.sum_univ_fun_getElem]
  rfl

/-- Where the framework has a ratio limit, the padding of a run of the protocol goes past it by no
more than the budgets of the machines and one packet of each. -/
theorem reach_budget {s : Use R T D} (h : Reach Use.Initial Obeys s)
    (hset : (Val.fin 0).lt s.framework.maxPaddingFrac.val = true) :
    ∃ q, s.framework.maxPaddingFrac.val = .fin q ∧
      (s.framework.paddingSentPackets : ℚ) ≤
        q * (s.framework.paddingSentPackets + s.framework.normalSentPackets) +
          s.framework.machines.length +
          (s.framework.machines.map fun m => max m.allowedPaddingPackets 1).sum := by
  obtain ⟨ms, frac, hfixed, hfrac, hreach⟩ := reach_ledger h
  rw [hfixed.frac] at hset ⊢
  obtain ⟨q, hv, hq⟩ := fraction_positive hfrac hset
  have htotal := Ledger.total_le hq.le (hreach q hv hq)
  rw [sum_padBudget, Fintype.card_fin] at htotal
  rw [hfixed.machines]
  exact ⟨q, hv, htotal⟩

/-- A machine with a ratio limit is bounded by it in every run of the protocol. -/
theorem reach_bounded {s : Use R T D} (h : Reach Use.Initial Obeys s) {mi : Nat} {m : Machine}
    (hm : s.framework.machines[mi]? = some m)
    (hset : (Val.fin 0).lt m.maxPaddingFrac.val = true) :
    ∃ q, m.maxPaddingFrac.val = .fin q ∧ 0 < q ∧ Bounded s mi m q := by
  revert hm
  refine h.invariant (P := fun s => s.framework.machines[mi]? = some m →
    ∃ q, m.maxPaddingFrac.val = .fin q ∧ 0 < q ∧ Bounded s mi m q) ?_ ?_
  · intro s hs hm
    obtain ⟨machines, padding, blocking, now, rng, hnew⟩ := hs.1
    obtain ⟨_, _, hvalid, _, _, hfresh⟩ := new_ok.mp hnew
    rw [hfresh] at hm
    obtain ⟨q, hv, hq⟩ := Machine.validate_paddingFrac (hvalid m (List.mem_of_getElem? hm)) hset
    exact ⟨q, hv, hq, hs.bounded q (hfresh ▸ hm)⟩
  · intro s s' ih hstep hm
    obtain ⟨_, _, _, hcall, _⟩ := id hstep
    obtain ⟨q, hv, hq, hbound⟩ := ih ((shape_eq (triggerEvents_shape hcall)).1 ▸ hm)
    exact ⟨q, hv, hq, hbound.call hv hq hstep⟩

/-- In every session of calls for one event each that reports padding only where it is the last
thing that was asked of the machine, the padding of all machines goes past the common ratio by no
more than their budgets and one packet of each. -/
theorem padding_within_ratio {f f' : Framework R T D} (hf : Initial f)
    {reports : List (TriggerEvent × T)} {actions : List (List (TriggerAction D))}
    (hrun : f.run (reports.map fun x => ([x.1], x.2)) = .ok (actions, f'))
    (hhonest : Requests.honest (fun _ => none) ((reports.map (·.1)).zip actions) = true)
    (hset : (Val.fin 0).lt f.maxPaddingFrac.val = true) :
    ∃ q, f.maxPaddingFrac.val = .fin q ∧
      ((reports.map (·.1)).countP (·.isPaddingSent) : ℚ) ≤
        q * ((reports.map (·.1)).countP (·.isPaddingSent) +
          (reports.map (·.1)).count .normalSent) + f.machines.length +
          (f.machines.map fun m => max m.allowedPaddingPackets 1).sum := by
  have hcounts := hf.counts.run hrun
  have hevents : (reports.map fun x => ([x.1], x.2)).flatMap (·.1) = reports.map (·.1) := by
    rw [List.flatMap_map]
    exact List.flatMap_pure_eq_map _ _
  rw [List.nil_append, hevents] at hcounts
  obtain ⟨hmachines, hfrac⟩ := run_rest hrun
  obtain ⟨asked, hobeys⟩ := hf.obeys hrun hhonest
  obtain ⟨q, hv, hle⟩ := reach_budget hobeys (hfrac ▸ hset)
  rw [← hcounts.padding, ← hcounts.normal, ← hfrac, ← hmachines]
  exact ⟨q, hv, hle⟩

/-- A machine pads on its budget where the common ratio is set. -/
theorem padding_common : ∃ f f' : Framework Unit Instant Duration, Initial f ∧
    f.run [([.tunnelRecv], 0), ([.paddingSent 0], 0), ([.normalSent], 0)] =
      .ok ([[.sendPadding 0 false false 0], [], []], f') ∧
    ∃ q, f.maxPaddingFrac.val = .fin q ∧
      ((1 : ℕ) : ℚ) ≤ q * ((1 : ℕ) + (1 : ℕ)) + (1 : ℕ) + (1 : ℕ) := by
  have hrun : ((Framework.new [padder 1 ⟨0⟩ none] (Flt.ofRat (1 / 2)) ⟨0⟩ (0 : Instant)
      ()).toOption.bind fun made => made.toOption.bind fun f =>
        (f.run [([.tunnelRecv], 0), ([.paddingSent 0], 0), ([.normalSent], 0)]).toOption.map
          fun r => (f.machines, (Val.fin 0).lt f.maxPaddingFrac.val, r.1)) =
      some ([padder 1 ⟨0⟩ none], true, [[.sendPadding 0 false false 0], [], []]) := by
    decide +kernel
  simp only [Option.bind_eq_some_iff, Option.map_eq_some_iff, toOption_eq_some,
    Prod.mk.injEq] at hrun
  obtain ⟨_, hnew, f, rfl, ⟨_, f'⟩, hcalls, hmachines, hset, rfl⟩ := hrun
  have hinitial : Initial f := ⟨_, _, _, _, _, hnew⟩
  let reports : List (TriggerEvent × Instant) :=
    [(.tunnelRecv, 0), (.paddingSent 0, 0), (.normalSent, 0)]
  have hreports : f.run (reports.map fun x => ([x.1], x.2)) = _ := hcalls
  obtain ⟨q, hv, hle⟩ := padding_within_ratio hinitial hreports (by decide) hset
  rw [hmachines] at hle
  exact ⟨f, f', hinitial, hcalls, q, hv, hle⟩

end Framework

namespace Config
open Sim

variable {R G : Type} [RngCore R]

/-- In a tight simulation the packets that the framework of a side has heard of keep to the limits:
each machine pads past its ratio once at most, and all together past the common ratio by no more
than their budgets and one packet of each. -/
theorem padding_budgets_hold {args : SimulatorArgs G} {sq : SimQueue} (hsq : sq.BaseTrace)
    {cfg : Config R G} (h : Reachable args sq cfg) (htight : Tight cfg) (c : Bool) :
    let f := (cfg.sim.side c).framework
    let events := (heard cfg.sim c).map (·.event)
    (∀ (mi : Nat) m, f.machines[mi]? = some m → (Val.fin 0).lt m.maxPaddingFrac.val = true →
      ∃ q, m.maxPaddingFrac.val = .fin q ∧
        (events.count (.paddingSent mi) ≤ max m.allowedPaddingPackets 1 ∨
          (events.count (.paddingSent mi) : ℚ) - 1 <
            q * (events.count (.paddingSent mi) + events.count .normalSent - 1))) ∧
    ((Val.fin 0).lt f.maxPaddingFrac.val = true →
      ∃ q, f.maxPaddingFrac.val = .fin q ∧
        (events.countP (·.isPaddingSent) : ℚ) ≤
          q * (events.countP (·.isPaddingSent) + events.count .normalSent) + f.machines.length +
            (f.machines.map fun m => max m.allowedPaddingPackets 1).sum) := by
  intro f events
  obtain ⟨asked, hobeys⟩ := reachable_obeys hsq h htight c
  obtain ⟨w0, hbegins, hfrom⟩ := reachable_from h
  have hcounts : f.Counts events := session_counts hbegins hfrom c
  constructor
  · intro mi m hm hset
    obtain ⟨q, hv, _, hbound⟩ := Framework.reach_bounded hobeys hm hset
    obtain ⟨rt, hrt, hpast, _⟩ := hbound.runtime
    obtain ⟨hnormal, hpadding⟩ := hcounts.machines mi rt hrt
    rw [← hnormal, ← hpadding]
    exact ⟨q, hv, hpast⟩
  · intro hset
    obtain ⟨q, hv, hle⟩ := Framework.reach_budget hobeys hset
    rw [← hcounts.normal, ← hcounts.padding]
    exact ⟨q, hv, hle⟩

/-- The server has padded once, within its budget. -/
theorem padding_counted : ∃ cfg : Config Unit Unit, Reachable continuing oneSent cfg ∧
    ((heard cfg.sim false).map (·.event)).count (.paddingSent 0) = 1 ∧
    ∃ q, (Framework.padder 1 (Flt.ofRat (1 / 2)) none).maxPaddingFrac.val = .fin q ∧
      (1 ≤ max 1 1 ∨ ((1 : ℕ) : ℚ) - 1 < q * ((1 : ℕ) + (0 : ℕ) - 1)) := by
  have hrun : (paddedRun 11).map (fun r => ((r.2.sim.side false).framework.machines,
      ((heard r.2.sim false).map (·.event)).count (.paddingSent 0),
      ((heard r.2.sim false).map (·.event)).count .normalSent)) =
        some ([Framework.padder 1 (Flt.ofRat (1 / 2)) none], 1, 0) := by decide +kernel
  obtain ⟨⟨w0, cfg⟩, hcfg, hsome⟩ := Option.map_eq_some_iff.mp hrun
  simp only [Prod.mk.injEq] at hsome
  obtain ⟨hserver, hpads, hnormal⟩ := hsome
  obtain ⟨hbegins, hfrom, htight⟩ := paddedRun_some hcfg
  have hreach := ReachableFrom.reachable hfrom hbegins
  obtain ⟨hmachines, _⟩ := padding_budgets_hold (.push .new ..) hreach htight false
  obtain ⟨q, hv, hpast⟩ := hmachines 0 _ (by rw [hserver]; rfl) (by decide +kernel)
  rw [hpads, hnormal] at hpast
  exact ⟨cfg, hreach, hpads, q, hv, hpast⟩

end Config

end Maybenot

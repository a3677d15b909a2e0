import Maybenot.Lib.Nearest
import Maybenot.Proofs.Valid

namespace Maybenot
open Lib

theorem Probability.positive {x : Val} (h : Probability x) : ∃ q, x = .fin q ∧ 0 < q := by
  obtain ⟨q, rfl⟩ := h.finite
  exact ⟨q, rfl, of_decide_eq_true h.1⟩

/-- A probability that is added to a sum moves it up by as much, to the last place of a float, if
it stays within one. -/
theorem add_probability {sum p : F32} {b q : Rat} (hsum : sum.val = .fin b) (hb : 0 ≤ b)
    (hp : p.val = .fin q) (hq : 0 < q) (hone : (sum.add p).val.le (.fin 1) = true) :
    ∃ c, (sum.add p).val = .fin c ∧ b ≤ c ∧ |c - b - q| ≤ 1 / 2 ^ 24 := by
  have hadd : (sum.add p).val = (Flt.round (.fin (b + q)) : F32).val := by
    unfold Flt.add
    rw [hsum, hp]
    rfl
  rw [hadd] at hone ⊢
  have hup : (Val.fin b).le (Flt.round (.fin (b + q)) : F32).val = true := by
    rw [← Flt.round_val hsum hb]
    exact Flt.round_mono (by decide) (decide_eq_true (by linarith))
  have hsmall : b + q < 2 := by
    by_contra hlarge
    have htwo : (Flt.round (.fin 2) : F32).val = .fin 2 := by decide +kernel
    have hmono : (Flt.round (.fin 2) : F32).val.le (Flt.round (.fin (b + q)) : F32).val = true :=
      Flt.round_mono (by decide) (decide_eq_true (not_lt.mp hlarge))
    rw [htwo] at hmono
    exact absurd (Val.le_trans hmono hone) (by decide)
  have hpos : 0 < b + q := by linarith
  have hfin : Flt.magnitude 8 23 (b + q) < (2 ^ 8 - 1) * 2 ^ 23 :=
    (Flt.magnitude_mono hpos hsmall.le).trans_lt (by decide +kernel)
  obtain ⟨c, hc, hnear⟩ := Flt.round_near (e := 8) (m := 23) hpos hfin
  rw [hc] at hup ⊢
  refine ⟨c, rfl, of_decide_eq_true hup, ?_⟩
  have hexpo : Flt.exponent (b + q) < 1 := by
    have hlow := (Flt.exponent_spec hpos).1.trans_lt hsmall
    rw [show (2 : Rat) = 2 ^ (1 : Int) by norm_num] at hlow
    exact (zpow_lt_zpow_iff_right₀ (by norm_num)).mp hlow
  have hlast : Flt.lastPlace 8 23 (b + q) ≤ -23 := by
    unfold Flt.lastPlace Flt.minExp
    omega
  calc |c - b - q| = |c - (b + q)| := by rw [sub_sub]
    _ ≤ 2 ^ Flt.lastPlace 8 23 (b + q) / 2 := hnear
    _ ≤ 2 ^ (-23 : Int) / 2 := by
      apply div_le_div_of_nonneg_right _ (by norm_num)
      exact zpow_le_zpow_right₀ (by norm_num) hlast
    _ = 1 / 2 ^ 24 := by norm_num

/-- A sum does not go down. -/
theorem Trans.sum_ge {sum : F32} {ts : List Trans} (hsum : (Val.fin 0).le sum.val = true)
    (hprob : ∀ t ∈ ts, Probability t.prob.val) : sum.val.le (Trans.sum sum ts).val = true := by
  induction ts generalizing sum with
  | nil => exact Val.le_self (Val.le_not_nan hsum).2
  | cons t ts ih =>
    have hstep : sum.val.le (sum.add t.prob).val = true := by
      obtain ⟨q, hq, hpos⟩ := (hprob t List.mem_cons_self).positive
      unfold Flt.add
      rw [hq]
      cases hs : sum.val with
      | nan => exact absurd hs (Val.le_not_nan hsum).2
      | inf neg =>
        change (Val.inf neg).le (Flt.round (.inf neg) : F32).val = true
        rw [Flt.round_inf]
        exact Val.le_self (by simp)
      | fin b =>
        rw [hs] at hsum
        have hself := Flt.round_val hs (of_decide_eq_true hsum)
        have hmono := Flt.round_mono (e := 8) (m := 23) (by decide)
          (show (Val.fin b).le (.fin (b + q)) = true from decide_eq_true (by linarith))
        rwa [hself] at hmono
    exact Val.le_trans hstep (ih (Val.le_trans hsum hstep)
      fun t' ht' => hprob t' (List.mem_cons_of_mem _ ht'))

/-- The running sums of a vector: where they are, and by how much each target moves them. -/
structure Trans.Cuts (sum : F32) (ts : List Trans) (c : Nat → Rat) : Prop where
  val : ∀ i, (Trans.sum sum (ts.take i)).val = .fin (c i)
  mono : Monotone c
  step : ∀ (i : Nat) t p, ts[i]? = some t → t.prob.val = .fin p →
    |c (i + 1) - c i - p| ≤ 1 / 2 ^ 24

theorem Trans.cuts {sum : F32} {ts : List Trans} {b : Rat} (hsum : sum.val = .fin b) (hb : 0 ≤ b)
    (hprob : ∀ t ∈ ts, Probability t.prob.val)
    (htotal : (Trans.sum sum ts).val.le (.fin 1) = true) : ∃ c, Trans.Cuts sum ts c := by
  induction ts generalizing sum b with
  | nil =>
    refine ⟨fun _ => b, fun i => ?_, monotone_const, fun i t p ht => absurd ht (by simp)⟩
    rw [List.take_nil]
    exact hsum
  | cons t ts ih =>
    have hrest : ∀ t' ∈ ts, Probability t'.prob.val :=
      fun t' ht' => hprob t' (List.mem_cons_of_mem _ ht')
    obtain ⟨q, hq, hpos⟩ := (hprob t List.mem_cons_self).positive
    have hzero : (Val.fin 0).le sum.val = true := by
      rw [hsum]
      exact decide_eq_true hb
    have hhead : ∀ t' ∈ [t], Probability t'.prob.val :=
      fun t' ht' => List.mem_singleton.mp ht' ▸ hprob t List.mem_cons_self
    have hup : sum.val.le (sum.add t.prob).val = true := Trans.sum_ge hzero hhead
    have hone := Val.le_trans (Trans.sum_ge (Val.le_trans hzero hup) hrest) htotal
    obtain ⟨b', hb', hle, hnear⟩ := add_probability hsum hb hq hpos hone
    obtain ⟨c, hc⟩ := ih hb' (hb.trans hle) hrest htotal
    have hfirst : c 0 = b' := Val.fin.inj ((hc.val 0).symm.trans hb')
    refine ⟨fun i => if i = 0 then b else c (i - 1), fun i => ?_, ?_, fun i t' p ht' hp => ?_⟩
    · cases i with
      | zero => exact hsum
      | succ i => exact hc.val i
    · apply monotone_nat_of_le_succ
      intro i
      cases i with
      | zero => exact hle.trans_eq hfirst.symm
      | succ i => exact hc.mono (Nat.le_succ i)
    · cases i with
      | zero =>
        obtain rfl := Option.some.inj ht'
        obtain rfl := Val.fin.inj (hq.symm.trans hp)
        change |c 0 - b - q| ≤ _
        rw [hfirst]
        exact hnear
      | succ i => exact hc.step i t' p ht' hp

/-- The target whose interval between two sums holds the draw is chosen, and only this one. -/
theorem Trans.Cuts.firstAbove {sum : F32} {ts : List Trans} {c : Nat → Rat}
    (h : Trans.Cuts sum ts c) (hdistinct : (ts.map Trans.state).Nodup) {r : Rat} (hr : c 0 ≤ r)
    {i : Nat} {t : Trans} (ht : ts[i]? = some t) :
    State.firstAbove r sum ts = some t.state ↔ c i ≤ r ∧ r < c (i + 1) := by
  induction ts generalizing sum c i with
  | nil => exact absurd ht (by simp)
  | cons x ts ih =>
    rw [List.map_cons, List.nodup_cons] at hdistinct
    have hx : (sum.add x.prob).val = .fin (c 1) := h.val 1
    have hrest : Trans.Cuts (sum.add x.prob) ts fun i => c (i + 1) :=
      ⟨fun i => h.val (i + 1), fun i j hij => h.mono (Nat.succ_le_succ hij),
        fun i => h.step (i + 1)⟩
    have hother {s : Nat} (hs : State.firstAbove r (sum.add x.prob) ts = some s) :
        s ≠ x.state := by
      rintro rfl
      obtain ⟨t', ht', heq⟩ := State.firstAbove_mem hs
      exact hdistinct.1 (List.mem_map.mpr ⟨t', ht', heq⟩)
    unfold State.firstAbove
    dsimp only
    rw [hx]
    by_cases hlt : r < c 1
    · rw [if_pos (show (Val.fin r).lt (.fin (c 1)) = true from decide_eq_true hlt)]
      cases i with
      | zero =>
        obtain rfl := Option.some.inj ht
        exact iff_of_true rfl ⟨hr, hlt⟩
      | succ i =>
        have hne : x.state ≠ t.state := fun heq =>
          hdistinct.1 (heq ▸ List.mem_map_of_mem (List.mem_of_getElem? ht))
        have hge : c 1 ≤ c (i + 1) := h.mono (Nat.succ_le_succ (Nat.zero_le i))
        exact iff_of_false (by simpa using hne) fun hin => absurd (hge.trans hin.1) (not_le.mpr hlt)
    · rw [if_neg (by simpa [Val.lt] using hlt)]
      cases i with
      | zero =>
        obtain rfl := Option.some.inj ht
        exact iff_of_false (fun hs => hother hs rfl) fun hin => hlt hin.2
      | succ i => exact ih hrest hdistinct.2 (not_lt.mp hlt) ht

/-- Nothing is chosen for a draw from the last sum on. -/
theorem Trans.Cuts.firstAbove_none {sum : F32} {ts : List Trans} {c : Nat → Rat}
    (h : Trans.Cuts sum ts c) {r : Rat} (hr : c 0 ≤ r) :
    State.firstAbove r sum ts = none ↔ c ts.length ≤ r := by
  induction ts generalizing sum c with
  | nil => exact iff_of_true rfl hr
  | cons x ts ih =>
    have hx : (sum.add x.prob).val = .fin (c 1) := h.val 1
    have hrest : Trans.Cuts (sum.add x.prob) ts fun i => c (i + 1) :=
      ⟨fun i => h.val (i + 1), fun i j hij => h.mono (Nat.succ_le_succ hij),
        fun i => h.step (i + 1)⟩
    unfold State.firstAbove
    dsimp only
    rw [hx]
    by_cases hlt : r < c 1
    · rw [if_pos (show (Val.fin r).lt (.fin (c 1)) = true from decide_eq_true hlt)]
      have hge : c 1 ≤ c (ts.length + 1) := h.mono (Nat.succ_le_succ (Nat.zero_le _))
      exact iff_of_false (by simp) fun hle => absurd (hge.trans hle) (not_le.mpr hlt)
    · rw [if_neg (by simpa [Val.lt] using hlt)]
      exact ih hrest (not_lt.mp hlt)

/-- A valid machine moves as its probabilities say: the draws are cut into intervals, one for each
target in order and the rest for none, and each interval is as long as the probability of its
target, to the last place of a float. -/
theorem sampled_as_declared {R : Type} [RngCore R] {m : Machine} (hvalid : m.validate R = .ok ())
    {st : State} (hst : st ∈ m.states) {event : Event} {ts : List Trans}
    (hts : st.transitions.get event.toUsize = some ts) (hnumeric : ∀ t ∈ ts, t.prob.val ≠ .nan) :
    ∃ c : Nat → Rat, c 0 = 0 ∧ Monotone c ∧ c ts.length ≤ 1 ∧
      (∀ (i : Nat) t, ts[i]? = some t → ∃ p, t.prob.val = .fin p ∧
        |c (i + 1) - c i - p| ≤ 1 / 2 ^ 24 ∧
        ∀ rng : R, (st.sampleState event rng).1 = some t.state ↔
          c i ≤ (RngCore.genUnit rng).1 ∧ (RngCore.genUnit rng).1 < c (i + 1)) ∧
      ∀ rng : R, (st.sampleState event rng).1 = none ↔
        c ts.length ≤ (RngCore.genUnit rng).1 := by
  have hmem : some ts ∈ st.transitions.toList := by
    rw [← hts]
    exact Vector.mem_toList_iff.mpr (Vector.getElem_mem event.toUsize.isLt)
  obtain ⟨i, hchecks⟩ := Machine.validate_vectors hvalid hst hmem
  obtain ⟨-, hdistinct, -, hprob, htotal⟩ :=
    (State.validateEvent_valid hchecks).mpr hnumeric
  have hzero : (Flt.ofRat 0 : F32).val = .fin 0 := by decide +kernel
  obtain ⟨c, hc⟩ := Trans.cuts hzero le_rfl hprob htotal.2
  have hfirst : c 0 = 0 := Val.fin.inj ((hc.val 0).symm.trans hzero)
  have hlast := hc.val ts.length
  rw [List.take_length] at hlast
  have hone := htotal.2
  rw [hlast] at hone
  have hsample (rng : R) : (st.sampleState event rng).1 =
      State.firstAbove (RngCore.genUnit rng).1.1 (Flt.ofRat 0) ts := by
    have hrow : st.transitions[event.toUsize] = some ts := hts
    unfold State.sampleState
    rw [hrow]
  have hdraw (rng : R) : c 0 ≤ (RngCore.genUnit rng).1.1 := by
    rw [hfirst]
    exact (RngCore.genUnit rng).1.2.1
  refine ⟨c, hfirst, hc.mono, of_decide_eq_true hone, fun i t ht => ?_, fun rng => ?_⟩
  · obtain ⟨p, hp⟩ := (hprob t (List.mem_of_getElem? ht)).finite
    refine ⟨p, hp, hc.step i t p ht hp, fun rng => ?_⟩
    rw [hsample]
    exact hc.firstAbove hdistinct (hdraw rng) ht
  · rw [hsample]
    exact hc.firstAbove_none (hdraw rng)

/-- A machine that stays with one half and stops with one quarter, by the draws. -/
theorem halves_sampled : ∃ (m : Machine) (st : State) (c : Nat → Rat), m.validate Unit = .ok () ∧
    st ∈ m.states ∧ |c 1 - c 0 - 1 / 2| ≤ 1 / 2 ^ 24 ∧ |c 2 - c 1 - 1 / 4| ≤ 1 / 2 ^ 24 ∧
    ∀ rng : Unit, (st.sampleState .normalSent rng).1 = some 0 ↔
      c 0 ≤ (RngCore.genUnit rng).1 ∧ (RngCore.genUnit rng).1 < c 1 := by
  let ts : List Trans := [⟨0, Flt.ofRat (1 / 2)⟩, ⟨stateEnd, Flt.ofRat (1 / 4)⟩]
  let st : State := .new fun e => if e = .normalSent then ts else []
  let m : Machine := .free [st]
  have hvalid : m.validate Unit = .ok () := by decide +kernel
  have hnumeric : ∀ t ∈ ts, t.prob.val ≠ .nan := by decide +kernel
  have hts : st.transitions.get Event.normalSent.toUsize = some ts := by decide +kernel
  obtain ⟨c, -, -, -, htargets, -⟩ :=
    sampled_as_declared hvalid List.mem_cons_self hts hnumeric
  obtain ⟨p, hp, hnear, hdraws⟩ := htargets 0 _ rfl
  obtain ⟨p', hp', hnear', -⟩ := htargets 1 _ rfl
  obtain rfl : p = 1 / 2 :=
    Val.fin.inj (hp.symm.trans (by decide +kernel : (Flt.ofRat (1 / 2) : F32).val = .fin (1 / 2)))
  obtain rfl : p' = 1 / 4 :=
    Val.fin.inj (hp'.symm.trans (by decide +kernel : (Flt.ofRat (1 / 4) : F32).val = .fin (1 / 4)))
  exact ⟨m, st, c, hvalid, List.mem_cons_self, hnear, hnear', hdraws⟩

end Maybenot

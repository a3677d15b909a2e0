import Maybenot.Proofs.Total

namespace Maybenot
open Lib

/-- A number from zero to one. -/
def Fraction (x : Val) : Prop := (Val.fin 0).le x = true ∧ x.le (.fin 1) = true

/-- A number above zero and up to one. -/
def Probability (x : Val) : Prop := (Val.fin 0).lt x = true ∧ x.le (.fin 1) = true

/-- The range check of the overhead fractions lets a fraction pass, and NaN. -/
theorem inside_fraction {x : Val} :
    ¬ (x.lt (.fin 0) || (Val.fin 1).lt x) = true ↔ x = .nan ∨ Fraction x := by
  cases x with
  | nan => simp
  | inf neg => cases neg <;> simp [Fraction, Val.lt, Val.le]
  | fin q => simp [Fraction, Val.lt, Val.le]

/-- So does the range check of the probabilities. -/
theorem inside_probability {x : Val} :
    ¬ (x.le (.fin 0) || (Val.fin 1).lt x) = true ↔ x = .nan ∨ Probability x := by
  cases x with
  | nan => simp
  | inf neg => cases neg <;> simp [Probability, Val.lt, Val.le]
  | fin q => simp [Probability, Val.lt, Val.le]

theorem Fraction.notNan {x : Val} (h : Fraction x) : x ≠ .nan := by
  intro hx
  subst hx
  exact absurd h.1 (by simp)

theorem Probability.notNan {x : Val} (h : Probability x) : x ≠ .nan := by
  intro hx
  subst hx
  exact absurd h.1 (by simp)

theorem Probability.finite {x : Val} (h : Probability x) : ∃ q, x = .fin q := by
  cases x with
  | nan => exact absurd rfl h.notNan
  | inf neg => cases neg <;> simp [Probability, Val.lt, Val.le] at h
  | fin q => exact ⟨q, rfl⟩

/-- The running sum of the probabilities of a transition vector. -/
def Trans.sum (sum : F32) (ts : List Trans) : F32 := ts.foldl (fun sum t => sum.add t.prob) sum

/-- A sum is NaN from the first NaN on, and only from there. -/
theorem Trans.sum_nan {sum : F32} {ts : List Trans}
    (h : ∀ t ∈ ts, t.prob.val = .nan ∨ Probability t.prob.val) :
    (Trans.sum sum ts).val = .nan ↔ sum.val = .nan ∨ ∃ t ∈ ts, t.prob.val = .nan := by
  induction ts generalizing sum with
  | nil => simp [Trans.sum]
  | cons t ts ih =>
    have hstep : (sum.add t.prob).val = .nan ↔ sum.val = .nan ∨ t.prob.val = .nan := by
      rw [Flt.add_nan (by decide)]
      rcases h t List.mem_cons_self with hnan | hprob
      · simp [hnan]
      · obtain ⟨q, hq⟩ := hprob.finite
        simp [hq, Val.add_fin_nan]
    have hrest : (Trans.sum (sum.add t.prob) ts).val = .nan ↔ _ :=
      ih fun x hx => h x (List.mem_cons_of_mem _ hx)
    change (Trans.sum (sum.add t.prob) ts).val = .nan ↔ _
    rw [hrest, hstep]
    simp [or_assoc]

/-- What validation promises of a transition vector of a machine with `n` states. -/
structure Trans.Valid (n : Nat) (ts : List Trans) : Prop where
  nonempty : ts ≠ []
  distinct : (ts.map Trans.state).Nodup
  targets : ∀ t ∈ ts, t.state < n ∨ t.state = stateEnd ∨ t.state = stateSignal
  probability : ∀ t ∈ ts, Probability t.prob.val
  total : Probability (Trans.sum (Flt.ofRat 0) ts).val

/-- What the checks of the single targets leave, `seen` being the targets before them. -/
structure Trans.Checked (n : Nat) (seen : List Nat) (ts : List Trans) : Prop where
  targets : ∀ t ∈ ts, t.state < n ∨ t.state = stateEnd ∨ t.state = stateSignal
  distinct : (ts.map Trans.state).Nodup
  fresh : ∀ t ∈ ts, t.state ∉ seen
  inside : ∀ t ∈ ts, t.prob.val = .nan ∨ Probability t.prob.val

theorem State.validateTrans_ok {n : Nat} {acc acc' : F32 × List Nat} {t : Trans}
    (h : State.validateTrans n acc t = .ok acc') :
    t.state ∉ acc.2 ∧ (t.prob.val = .nan ∨ Probability t.prob.val) ∧
      acc' = (acc.1.add t.prob, t.state :: acc.2) := by
  simp only [State.validateTrans, check_ok, pure_ok] at h
  obtain ⟨_, hseen, hprob, hacc⟩ := h
  exact ⟨by simpa using hseen, inside_probability.mp hprob, hacc.symm⟩

theorem State.validateTrans_fold {n : Nat} {acc acc' : F32 × List Nat} {ts : List Trans}
    (h : ts.foldlM (State.validateTrans n) acc = .ok acc') :
    Trans.Checked n acc.2 ts ∧ acc'.1 = Trans.sum acc.1 ts := by
  induction ts generalizing acc with
  | nil =>
    obtain rfl : acc = acc' := by simpa using h
    exact ⟨⟨by simp, by simp, by simp, by simp⟩, rfl⟩
  | cons t ts ih =>
    rw [List.foldlM_cons, bind_ok] at h
    obtain ⟨acc1, ht, hts⟩ := h
    have htarget := State.validateTrans_state ht
    obtain ⟨hseen, hinside, rfl⟩ := State.validateTrans_ok ht
    obtain ⟨hrest, hsum⟩ := ih hts
    refine ⟨⟨?_, ?_, ?_, ?_⟩, hsum⟩
    · exact List.forall_mem_cons.mpr ⟨htarget, hrest.targets⟩
    · rw [List.map_cons, List.nodup_cons]
      refine ⟨fun hmem => ?_, hrest.distinct⟩
      obtain ⟨x, hx, he⟩ := List.mem_map.mp hmem
      exact hrest.fresh x hx (he ▸ List.mem_cons_self)
    · intro x hx
      rcases List.mem_cons.mp hx with rfl | hx
      · exact hseen
      · exact fun hmem => hrest.fresh x hx (List.mem_cons_of_mem _ hmem)
    · exact List.forall_mem_cons.mpr ⟨hinside, hrest.inside⟩

/-- Where the check comes last. -/
theorem last_check_ok {p : Prop} [Decidable p] {text : String} {args : List Arg} {u : Unit} :
    (if p then fail text args else pure ()) = .ok u ↔ ¬ p := by
  by_cases hp : p <;> simp [hp, fail]

/-- The emptiness check passes always; it is the check of the sum that stops an empty vector. -/
theorem State.validateEvent_ok {s : State} {n : Nat} {vector : List Trans} {i : Nat} {u : Unit}
    (h : s.validateEvent n (some vector, i) = .ok u) :
    vector ≠ [] ∧ Trans.Checked n [] vector ∧
      ((Trans.sum (Flt.ofRat 0) vector).val = .nan ∨
        Probability (Trans.sum (Flt.ofRat 0) vector).val) := by
  simp only [State.validateEvent, check_ok, bind_ok, last_check_ok] at h
  obtain ⟨_, acc, hfold, hsum⟩ := h
  obtain ⟨hchecked, hacc⟩ := State.validateTrans_fold hfold
  rw [hacc] at hsum
  refine ⟨?_, hchecked, inside_probability.mp hsum⟩
  intro hempty
  subst hempty
  exact hsum (by decide)

/-- A vector that passed holds what validation promises exactly if no probability is NaN. -/
theorem State.validateEvent_valid {s : State} {n : Nat} {vector : List Trans} {i : Nat} {u : Unit}
    (h : s.validateEvent n (some vector, i) = .ok u) :
    Trans.Valid n vector ↔ ∀ t ∈ vector, t.prob.val ≠ .nan := by
  obtain ⟨hempty, hchecked, hsum⟩ := State.validateEvent_ok h
  constructor
  · exact fun hvalid t ht => (hvalid.probability t ht).notNan
  · intro hnan
    have htotal : (Trans.sum (Flt.ofRat 0) vector).val ≠ .nan := by
      rw [Ne, Trans.sum_nan hchecked.inside]
      intro hor
      rcases hor with hzero | hsome
      · exact absurd hzero (by decide)
      · obtain ⟨t, ht, htnan⟩ := hsome
        exact hnan t ht htnan
    exact ⟨hempty, hchecked.distinct, hchecked.targets,
      fun t ht => (hchecked.inside t ht).resolve_left (hnan t ht), hsum.resolve_left htotal⟩

namespace Machine

/-- The invariants of the fractions and probabilities of a machine. -/
structure Sound (m : Machine) : Prop where
  padding : Fraction m.maxPaddingFrac.val
  blocking : Fraction m.maxBlockingFrac.val
  vectors : ∀ st ∈ m.states, ∀ vector, some vector ∈ st.transitions.toList →
    Trans.Valid m.states.length vector

/-- None of a machine's fractions and probabilities is NaN. -/
structure Numeric (m : Machine) : Prop where
  padding : m.maxPaddingFrac.val ≠ .nan
  blocking : m.maxBlockingFrac.val ≠ .nan
  vectors : ∀ st ∈ m.states, ∀ vector, some vector ∈ st.transitions.toList →
    ∀ t ∈ vector, t.prob.val ≠ .nan

theorem validate_vectors {R : Type} [RngCore R] {m : Machine} {u : Unit}
    (h : m.validate R = .ok u) {st : State} (hst : st ∈ m.states) {vector : List Trans}
    (hv : some vector ∈ st.transitions.toList) :
    ∃ i, st.validateEvent m.states.length (some vector, i) = .ok () := by
  simp only [Machine.validate, check_ok] at h
  obtain ⟨_, _, _, _, hstates⟩ := h
  have hs := forM_ok hstates st hst
  split at hs
  · rename_i hvalid
    simp only [State.validate, bind_ok] at hvalid
    obtain ⟨_, hevents, _⟩ := hvalid
    obtain ⟨i, hi⟩ := List.mem_iff_getElem?.mp hv
    exact ⟨i, forM_ok hevents _ (List.mk_mem_zipIdx_iff_getElem?.mpr hi)⟩
  · exact absurd hs (by simp)

/-- Validation establishes the invariants exactly for the machines that hold no NaN. -/
theorem validate_sound {R : Type} [RngCore R] {m : Machine} {u : Unit}
    (h : m.validate R = .ok u) : m.Sound ↔ m.Numeric := by
  have hfracs := h
  simp only [Machine.validate, check_ok] at hfracs
  obtain ⟨hpadding, hblocking, _⟩ := hfracs
  constructor
  · intro hs
    exact ⟨hs.padding.notNan, hs.blocking.notNan, fun st hst vector hv t ht =>
      ((hs.vectors st hst vector hv).probability t ht).notNan⟩
  · intro hn
    refine ⟨?_, ?_, fun st hst vector hv => ?_⟩
    · exact (inside_fraction.mp hpadding).resolve_left hn.padding
    · exact (inside_fraction.mp hblocking).resolve_left hn.blocking
    · obtain ⟨i, hchecks⟩ := validate_vectors h hst hv
      apply (State.validateEvent_valid hchecks).mpr
      exact hn.vectors st hst vector hv

/-- One state that goes back to itself on normal packets with the given probability. -/
def looping (frac : F64) (prob : F32) : Machine where
  allowedPaddingPackets := 0
  maxPaddingFrac := frac
  allowedBlockedMicrosec := 0
  maxBlockingFrac := Flt.ofRat 1
  states := [.new fun e => if e = .normalSent then [⟨0, prob⟩] else []]

theorem looping_sound :
    (looping (Flt.ofRat (1 / 2)) (Flt.ofRat 1)).validate Unit = .ok () ∧
      (looping (Flt.ofRat (1 / 2)) (Flt.ofRat 1)).Sound := by
  have hvalid : (looping (Flt.ofRat (1 / 2)) (Flt.ofRat 1)).validate Unit = .ok () := by
    decide +kernel
  refine ⟨hvalid, (validate_sound hvalid).mpr ⟨by decide +kernel, by decide +kernel, ?_⟩⟩
  have hnumeric : ∀ st ∈ (looping (Flt.ofRat (1 / 2)) (Flt.ofRat 1)).states,
      ∀ row ∈ st.transitions.toList, ∀ t ∈ row.getD [], t.prob.val ≠ .nan := by
    decide +kernel
  intro st hst vector hv
  exact hnumeric st hst _ hv

/-- A NaN passes as the padding fraction, and as the probability of a transition. -/
theorem nan_admitted :
    ((looping (Flt.round .nan) (Flt.ofRat 1)).validate Unit = .ok () ∧
      ¬ (looping (Flt.round .nan) (Flt.ofRat 1)).Sound) ∧
    (looping (Flt.ofRat (1 / 2)) (Flt.round .nan)).validate Unit = .ok () ∧
      ¬ (looping (Flt.ofRat (1 / 2)) (Flt.round .nan)).Sound := by
  refine ⟨⟨by decide +kernel, fun h => ?_⟩, by decide +kernel, fun h => ?_⟩
  · exact h.padding.notNan (by decide +kernel)
  · let st : State := .new fun e => if e = .normalSent then [⟨0, Flt.round .nan⟩] else []
    have hv : some [⟨0, Flt.round .nan⟩] ∈ st.transitions.toList := by decide +kernel
    have hvalid := h.vectors st List.mem_cons_self _ hv
    exact (hvalid.probability _ List.mem_cons_self).notNan (by decide +kernel)

end Machine

end Maybenot

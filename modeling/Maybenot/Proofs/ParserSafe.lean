import Maybenot.Checked
import Maybenot.Proofs.Total

namespace Maybenot
open Lib

namespace Checked

/-- The code does not panic, and its result is the other's. -/
def Safe (x : Checked α) (y : Except Error α) : Prop := x = lift y

theorem Safe.bind {x : Checked α} {y : Except Error α} {f : α → Checked β}
    {g : α → Except Error β} (hx : Safe x y) (hf : ∀ a, y = .ok a → Safe (f a) (g a)) :
    Safe (x >>= f) (y >>= g) := by
  cases y with
  | error e =>
    rw [hx]
    rfl
  | ok a =>
    rw [hx]
    exact hf a rfl

theorem Safe.step {x : Checked α} {a : α} {f : α → Checked β} {y : Except Error β}
    (hx : x = pure a) (h : Safe (f a) y) : Safe (x >>= f) y := by
  rw [hx]
  exact h

theorem Safe.guard {p : Prop} [Decidable p] {text : String} {args : List Arg}
    {f : Checked β} {g : Except Error β} (h : ¬ p → Safe f g) :
    Safe (if p then fail text args >>= fun _ => f else f)
      (if p then Maybenot.fail text args >>= fun _ => g else g) := by
  by_cases hp : p
  · rw [if_pos hp, if_pos hp]
    rfl
  · rw [if_neg hp, if_neg hp]
    exact h hp

theorem addUsize_eq {m n : Nat} (h : m + n ≤ u64Max) : addUsize m n = pure (m + n) := if_pos h

theorem mulUsize_eq {m n : Nat} (h : m * n ≤ u64Max) : mulUsize m n = pure (m * n) := if_pos h

theorem slice_eq {buf : List UInt8} {i j : Nat} (h : i ≤ j) (hj : j ≤ buf.length) :
    slice buf i j = pure (Bytes.slice buf i j) := if_pos ⟨h, hj⟩

theorem byte_eq {buf : List UInt8} {i : Nat} (h : i < buf.length) :
    byte buf i = pure (buf.getD i 0) := by
  unfold byte
  rw [List.getD_eq_getElem?_getD, List.getElem?_eq_getElem h]
  rfl

theorem readUint_eq {k : Nat} {buf : List UInt8} (h : buf.length = k) :
    readUint k buf = pure (Bytes.decode buf) := by
  unfold readUint
  rw [if_pos h.ge, List.take_of_length_le h.le]

/-- A number that is within the buffer is read. -/
theorem Safe.read {k i : Nat} {buf : List UInt8} {f : Nat → Checked β} {y : Except Error β}
    (h : i + k ≤ buf.length) (hf : Safe (f (Bytes.decode (Bytes.slice buf i (i + k)))) y) :
    Safe (slice buf i (i + k) >>= fun s => readUint k s >>= f) y := by
  have hlen := Bytes.slice_length (i := i) h
  rw [Nat.add_sub_cancel_left] at hlen
  apply Safe.step (slice_eq (Nat.le_add_right i k) h)
  exact Safe.step (readUint_eq hlen) hf

theorem readAt_eq {k r : Nat} {buf : List UInt8} (h : r + k ≤ buf.length) (hr : r + k ≤ u64Max) :
    readAt k buf r = pure (Bytes.decode (Bytes.slice buf r (r + k))) := by
  have hlen := Bytes.slice_length (i := r) h
  rw [Nat.add_sub_cancel_left] at hlen
  unfold readAt
  rw [addUsize_eq hr, pure_bind, slice_eq (Nat.le_add_right r k) h, pure_bind, readUint_eq hlen]

theorem parseDist_safe (buf : List UInt8) : Safe (parseDist buf) (Maybenot.parseDist buf) := by
  unfold parseDist Maybenot.parseDist
  apply Safe.guard
  intro hlen
  have hbuf : 34 ≤ buf.length := Nat.not_lt.mp hlen
  apply Safe.read (i := 0) (k := 2) (by omega)
  apply Safe.read (i := 2) (k := 8) (by omega)
  apply Safe.read (i := 10) (k := 8) (by omega)
  apply Safe.read (i := 18) (k := 8) (by omega)
  apply Safe.read (i := 26) (k := 8) (by omega)
  rfl

theorem expectedStateLen_le {n : Nat} (h : n < 2 ^ 16) :
    Maybenot.expectedStateLen n ≤ 2 ^ 23 := by
  change 106 + (n + 2) * 8 * 8 ≤ 2 ^ 23
  omega

theorem expectedStateLen_eq {n : Nat} (h : n < 2 ^ 16) :
    expectedStateLen n = pure (Maybenot.expectedStateLen n) := by
  have hmax : u64Max = 2 ^ 64 - 1 := rfl
  have hrow : (n + 2) * 8 ≤ u64Max := by omega
  have hmatrix : (n + 2) * 8 * (v1EventsIter.length + 1) ≤ u64Max := by
    change (n + 2) * 8 * 8 ≤ u64Max
    omega
  unfold expectedStateLen
  rw [mulUsize_eq (by decide), pure_bind, addUsize_eq (by decide), pure_bind,
    addUsize_eq (by omega), pure_bind, mulUsize_eq hrow, pure_bind, addUsize_eq (by decide),
    pure_bind, mulUsize_eq hmatrix, pure_bind, addUsize_eq]
  · rfl
  · exact (expectedStateLen_le h).trans (by decide)

/-- A loop does not panic where no step does while an invariant holds. -/
theorem Safe.foldlM {P : Nat → σ → Prop} {step : σ → α → Checked σ}
    {step' : σ → α → Except Error σ} {n : Nat}
    (h : ∀ k s x, k < n → P k s →
      Safe (step s x) (step' s x) ∧ ∀ s', step' s x = .ok s' → P (k + 1) s')
    (xs : List α) {k : Nat} (hn : k + xs.length = n) {s : σ} (hs : P k s) :
    Safe (xs.foldlM step s) (xs.foldlM step' s) ∧
      ∀ s', xs.foldlM step' s = .ok s' → P n s' := by
  induction xs generalizing k s with
  | nil =>
    obtain rfl : k = n := hn
    refine ⟨rfl, ?_⟩
    intro s' hs'
    exact pure_ok.mp hs' ▸ hs
  | cons x xs ih =>
    rw [List.length_cons] at hn
    obtain ⟨hsafe, hnext⟩ := h k s x (by omega) hs
    rw [List.foldlM_cons, List.foldlM_cons]
    constructor
    · apply Safe.bind hsafe
      intro s' hs'
      exact (ih (by omega) (hnext s' hs')).1
    · intro s'' hs''
      obtain ⟨s', hs', hrest⟩ := bind_ok.mp hs''
      exact (ih (by omega) (hnext s' hs')).2 s'' hrest

section Matrix

variable {buf : List UInt8} {n : Nat} {event : Event}

theorem parseTrans_safe {acc : Matrix} (i : Nat) (h : acc.1 + 8 ≤ buf.length)
    (hr : acc.1 + 8 ≤ u64Max) :
    Safe (parseTrans buf n event acc i) (Maybenot.parseTrans buf n event acc i) ∧
      ∀ acc', Maybenot.parseTrans buf n event acc i = .ok acc' → acc'.1 = acc.1 + 8 := by
  obtain ⟨r, transitions⟩ := acc
  unfold parseTrans Maybenot.parseTrans
  constructor
  · apply Safe.step (readAt_eq h hr)
    apply Safe.step (addUsize_eq hr)
    change Safe _ (if (readF64 (Bytes.slice buf r (r + 8))).val ≠ .fin 0 then _ else _)
    change Safe (if (readF64 (Bytes.slice buf r (r + 8))).val ≠ .fin 0 then _ else _) _
    split
    · split
      · rfl
      · split <;> rfl
    · rfl
  · intro acc' hacc'
    dsimp only at hacc'
    split at hacc'
    · split at hacc'
      · cases hacc'
        rfl
      · split at hacc'
        · cases hacc'
        · cases hacc'
          rfl
    · cases hacc'
      rfl

theorem parseRow_safe {acc : Matrix} (event : Event) (hlen : acc.1 + 8 * (n + 2) ≤ buf.length)
    (hmax : acc.1 + 8 * (n + 2) ≤ u64Max) :
    Safe (parseRow buf n acc event) (Maybenot.parseRow buf n acc event) ∧
      ∀ acc', Maybenot.parseRow buf n acc event = .ok acc' → acc'.1 = acc.1 + 8 * (n + 2) := by
  have hstep : ∀ k (s : Matrix) i, k < n + 2 → s.1 = acc.1 + 8 * k →
      Safe (parseTrans buf n event s i) (Maybenot.parseTrans buf n event s i) ∧
        ∀ s', Maybenot.parseTrans buf n event s i = .ok s' → s'.1 = acc.1 + 8 * (k + 1) := by
    intro k s i hk hs
    have hnext : s.1 + 8 ≤ acc.1 + 8 * (n + 2) := by omega
    obtain ⟨hsafe, hoffset⟩ := parseTrans_safe i (hnext.trans hlen) (hnext.trans hmax)
    refine ⟨hsafe, fun s' hs' => ?_⟩
    rw [hoffset s' hs', hs]
    omega
  have hcolumns : 0 + (List.range (n + 2)).length = n + 2 := by
    rw [List.length_range, Nat.zero_add]
  obtain ⟨hsafe, hend⟩ := Safe.foldlM (P := fun k (s : Matrix) => s.1 = acc.1 + 8 * k) hstep
    (List.range (n + 2)) hcolumns (Nat.add_zero acc.1).symm
  exact ⟨Safe.step (addUsize_eq (by omega)) hsafe, hend⟩

/-- The offset is within the matrix as long as there are rows left. -/
theorem row_end {k r : Nat} (hk : k < 7) :
    r + 8 * (n + 2) * k + 8 * (n + 2) ≤ r + 8 * (n + 2) * 7 := by
  have hmul : 8 * (n + 2) * (k + 1) ≤ 8 * (n + 2) * 7 := Nat.mul_le_mul_left _ hk
  rw [Nat.mul_succ (8 * (n + 2)) k] at hmul
  omega

theorem parseRows_safe {transitions : Event → List Trans} {r : Nat}
    (hlen : r + 8 * (n + 2) * 7 ≤ buf.length) (hmax : r + 8 * (n + 2) * 7 ≤ u64Max) :
    Safe (v1EventsIter.foldlM (parseRow buf n) (r, transitions))
      (v1EventsIter.foldlM (Maybenot.parseRow buf n) (r, transitions)) := by
  have hstep : ∀ k (s : Matrix) event, k < 7 → s.1 = r + 8 * (n + 2) * k →
      Safe (parseRow buf n s event) (Maybenot.parseRow buf n s event) ∧
        ∀ s', Maybenot.parseRow buf n s event = .ok s' → s'.1 = r + 8 * (n + 2) * (k + 1) := by
    intro k s event hk hs
    have hnext : s.1 + 8 * (n + 2) ≤ r + 8 * (n + 2) * 7 := hs ▸ row_end hk
    obtain ⟨hsafe, hoffset⟩ := parseRow_safe event (hnext.trans hlen) (hnext.trans hmax)
    refine ⟨hsafe, fun s' hs' => ?_⟩
    rw [hoffset s' hs', hs, Nat.mul_succ (8 * (n + 2)) k, Nat.add_assoc]
  exact (Safe.foldlM (P := fun k (s : Matrix) => s.1 = r + 8 * (n + 2) * k) hstep
    v1EventsIter rfl (Nat.add_zero r).symm).1

end Matrix

/-- A distribution is read from its place in the buffer. -/
theorem Safe.dist {buf : List UInt8} {r : Nat} {f : Option Dist → Checked β}
    {g : Option Dist → Except Error β} (h : r + serializedDistSize ≤ buf.length)
    (hr : r + serializedDistSize ≤ u64Max) (hf : ∀ d, Safe (f d) (g d)) :
    Safe (addUsize r serializedDistSize >>= fun j => slice buf r j >>= fun s => parseDist s >>= f)
      (Maybenot.parseDist (Bytes.slice buf r (r + serializedDistSize)) >>= g) := by
  apply Safe.step (addUsize_eq hr)
  apply Safe.step (slice_eq (Nat.le_add_right _ _) h)
  exact Safe.bind (parseDist_safe _) fun d _ => hf d

theorem parseState_safe {buf : List UInt8} {n : Nat} (hn : n < 2 ^ 16) :
    Safe (parseState buf n) (Maybenot.parseState buf n) := by
  unfold parseState Maybenot.parseState
  apply Safe.step (expectedStateLen_eq hn)
  apply Safe.guard
  intro hlen
  have hbuf : 106 + (n + 2) * 8 * 8 ≤ buf.length := Nat.not_lt.mp hlen
  have hdist : serializedDistSize = 34 := rfl
  have hmax : u64Max = 2 ^ 64 - 1 := rfl
  apply Safe.dist (by omega) (by decide)
  intro duration
  apply Safe.step (addUsize_eq (by decide))
  apply Safe.dist (by omega) (by decide)
  intro limit
  apply Safe.step (addUsize_eq (by decide))
  apply Safe.dist (by omega) (by decide)
  intro timeout
  apply Safe.step (addUsize_eq (by decide))
  apply Safe.step (byte_eq (by omega))
  apply Safe.step (addUsize_eq (by decide))
  apply Safe.step (byte_eq (by omega))
  apply Safe.step (addUsize_eq (by decide))
  apply Safe.step (byte_eq (by omega))
  apply Safe.step (addUsize_eq (by decide))
  apply Safe.bind rfl
  intro action _
  apply Safe.step (addUsize_eq (by decide))
  apply Safe.bind
  · apply parseRows_safe
    · omega
    · omega
  · intro acc _
    rfl

theorem parseNext_safe {buf : List UInt8} {n : Nat} {acc : Nat × List State} (hn : n < 2 ^ 16)
    (hlen : acc.1 + Maybenot.expectedStateLen n ≤ buf.length)
    (hmax : acc.1 + Maybenot.expectedStateLen n ≤ u64Max) :
    Safe (parseNext buf n (Maybenot.expectedStateLen n) acc) (Maybenot.parseNext buf n acc) ∧
      ∀ acc', Maybenot.parseNext buf n acc = .ok acc' →
        acc'.1 = acc.1 + Maybenot.expectedStateLen n := by
  obtain ⟨r, states⟩ := acc
  unfold parseNext Maybenot.parseNext
  constructor
  · apply Safe.step (addUsize_eq hmax)
    apply Safe.step (slice_eq (Nat.le_add_right _ _) hlen)
    apply Safe.bind (parseState_safe hn)
    intro s _
    exact Safe.step (addUsize_eq hmax) rfl
  · intro acc' hacc'
    obtain ⟨s, _, hacc'⟩ := bind_ok.mp hacc'
    cases pure_ok.mp hacc'
    rfl

theorem parseNexts_safe {buf : List UInt8} {n : Nat} (hn : n < 2 ^ 16)
    (hlen : 35 + Maybenot.expectedStateLen n * n = buf.length) :
    Safe ((List.range n).foldlM
        (fun acc _ => parseNext buf n (Maybenot.expectedStateLen n) acc) (35, []))
      ((List.range n).foldlM (fun acc _ => Maybenot.parseNext buf n acc) (35, [])) := by
  have hmax : 35 + Maybenot.expectedStateLen n * n ≤ u64Max := by
    have hmul : Maybenot.expectedStateLen n * n ≤ 2 ^ 23 * 2 ^ 16 :=
      Nat.mul_le_mul (expectedStateLen_le hn) hn.le
    change _ ≤ 2 ^ 64 - 1
    omega
  have hstep : ∀ k (s : Nat × List State) (i : Nat), k < n →
      s.1 = 35 + Maybenot.expectedStateLen n * k →
      Safe (parseNext buf n (Maybenot.expectedStateLen n) s) (Maybenot.parseNext buf n s) ∧
        ∀ s', Maybenot.parseNext buf n s = .ok s' →
          s'.1 = 35 + Maybenot.expectedStateLen n * (k + 1) := by
    intro k s i hk hs
    have hend : s.1 + Maybenot.expectedStateLen n ≤ 35 + Maybenot.expectedStateLen n * n := by
      have hmul := Nat.mul_le_mul_left (Maybenot.expectedStateLen n) (Nat.succ_le_of_lt hk)
      rw [Nat.mul_succ] at hmul
      omega
    obtain ⟨hsafe, hoffset⟩ := parseNext_safe hn (hend.trans hlen.le) (hend.trans hmax)
    refine ⟨hsafe, fun s' hs' => ?_⟩
    rw [hoffset s' hs', hs, Nat.mul_succ, Nat.add_assoc]
  exact (Safe.foldlM (P := fun k s => s.1 = 35 + Maybenot.expectedStateLen n * k) hstep
    (List.range n) (by rw [List.length_range, Nat.zero_add]) rfl).1

/-- No slice, no index and no sum of the parser fails. -/
theorem parseV1_safe (R : Type) [RngCore R] (buf : List UInt8) :
    Safe (parseV1 R buf) (Maybenot.parseV1 R buf) := by
  unfold parseV1 Maybenot.parseV1
  apply Safe.guard
  intro hlen
  have hbuf : 35 ≤ buf.length := Nat.not_lt.mp hlen
  apply Safe.step (readAt_eq (by omega) (by decide))
  apply Safe.step (addUsize_eq (by decide))
  apply Safe.step (readAt_eq (by omega) (by decide))
  apply Safe.step (addUsize_eq (by decide))
  apply Safe.step (readAt_eq (by omega) (by decide))
  apply Safe.step (addUsize_eq (by decide))
  apply Safe.step (readAt_eq (by omega) (by decide))
  apply Safe.step (addUsize_eq (by decide))
  apply Safe.step (addUsize_eq (by decide))
  apply Safe.step (readAt_eq (by omega) (by decide))
  apply Safe.step (addUsize_eq (by decide))
  have hn : Bytes.decode (Bytes.slice buf 33 35) < 2 ^ 16 := by
    have hlt := Bytes.decode_lt (Bytes.slice buf 33 35)
    rwa [Bytes.slice_length hbuf] at hlt
  have hmul := Nat.mul_le_mul (expectedStateLen_le hn) hn.le
  apply Safe.step (expectedStateLen_eq hn)
  apply Safe.step (slice_eq hbuf (Nat.le_refl _))
  apply Safe.step (mulUsize_eq (hmul.trans (by decide)))
  rw [Bytes.slice_end]
  apply Safe.guard
  intro hrest
  have hexact : 35 + Maybenot.expectedStateLen (Bytes.decode (Bytes.slice buf 33 35)) *
      Bytes.decode (Bytes.slice buf 33 35) = buf.length := by
    have hdrop := not_not.mp hrest
    rw [List.length_drop] at hdrop
    omega
  apply Safe.bind (parseNexts_safe hn hexact)
  intro acc _
  rfl

end Checked

/-- Every target is one of so many states or the end. -/
def State.Targets (n : Nat) (s : State) : Prop :=
  ∀ vector, some vector ∈ s.transitions.toList →
    ∀ t ∈ vector, t.state < n ∨ t.state = stateEnd

section Targets

variable {buf : List UInt8} {n : Nat}

/-- Every target in a matrix is one of so many states or the end. -/
def Matrix.Targets (n : Nat) (acc : Matrix) : Prop :=
  ∀ event, ∀ t ∈ acc.2 event, t.state < n ∨ t.state = stateEnd

theorem Matrix.Targets.push {r r' : Nat} {transitions : Event → List Trans}
    (h : Matrix.Targets n (r, transitions)) (event : Event) {t : Trans}
    (ht : t.state < n ∨ t.state = stateEnd) :
    Matrix.Targets n (r', Function.update transitions event (transitions event ++ [t])) := by
  intro e x hx
  by_cases he : e = event
  · subst he
    change x ∈ Function.update transitions e _ e at hx
    rw [Function.update_self] at hx
    rcases List.mem_append.mp hx with hx | hx
    · exact h e x hx
    · exact List.mem_singleton.mp hx ▸ ht
  · change x ∈ Function.update transitions event _ e at hx
    rw [Function.update_of_ne he] at hx
    exact h e x hx

theorem parseTrans_targets {event : Event} {acc acc' : Matrix} {i : Nat} (h : acc.Targets n)
    (hacc' : parseTrans buf n event acc i = .ok acc') : acc'.Targets n := by
  obtain ⟨r, transitions⟩ := acc
  unfold parseTrans at hacc'
  dsimp only at hacc'
  split at hacc'
  · split at hacc'
    · next hi =>
      cases hacc'
      exact h.push event (.inl hi)
    · split at hacc'
      · cases hacc'
      · cases hacc'
        exact h.push event (.inr rfl)
  · cases hacc'
    exact h

theorem State.new_transitions {t : Event → List Trans} {vector : List Trans}
    (h : some vector ∈ (State.new t).transitions.toList) : ∃ e, t e = vector := by
  rw [State.new, Vector.toList_map] at h
  obtain ⟨e, _, he⟩ := List.mem_map.mp h
  split at he
  · cases he
  · exact ⟨e, Option.some.inj he⟩

theorem parseState_targets {s : State} (h : parseState buf n = .ok s) : s.Targets n := by
  unfold parseState at h
  simp only [check_ok, bind_ok, pure_ok] at h
  obtain ⟨_, _, _, _, _, _, _, _, _, acc, hrows, rfl⟩ := h
  have hacc : acc.Targets n := by
    apply foldlM_keeps (P := Matrix.Targets n) _ _ hrows
    · intro acc event _ acc' hacc hrow
      exact foldlM_keeps (P := Matrix.Targets n)
        (fun acc i _ acc' hacc htrans => parseTrans_targets hacc htrans) hacc hrow
    · intro event t ht
      exact absurd ht List.not_mem_nil
  intro vector hvector t ht
  obtain ⟨event, rfl⟩ := State.new_transitions hvector
  exact hacc event t ht

theorem parseNexts_targets {start : Nat} {acc : Nat × List State}
    (h : (List.range n).foldlM (fun acc _ => parseNext buf n acc) (start, []) = .ok acc) :
    acc.2.length = n ∧ ∀ s ∈ acc.2, s.Targets n := by
  apply foldlM_range (P := fun k (acc : Nat × List State) =>
    acc.2.length = k ∧ ∀ s ∈ acc.2, s.Targets n) _ _ h
  · intro k acc acc' _ hacc hnext
    obtain ⟨s, hs, hnext⟩ := bind_ok.mp hnext
    cases pure_ok.mp hnext
    refine ⟨?_, fun s' hs' => ?_⟩
    · rw [List.length_append, hacc.1]
      rfl
    · rcases List.mem_append.mp hs' with hs' | hs'
      · exact hacc.2 s' hs'
      · exact List.mem_singleton.mp hs' ▸ parseState_targets hs
  · exact ⟨rfl, fun s hs => absurd hs List.not_mem_nil⟩

end Targets

/-- The parser of version 1 does not panic, whatever bytes it is given; a machine that it returns
takes exactly its bytes, and each of its transitions has a target. -/
theorem parse_v1_safe (R : Type) [RngCore R] (buf : List UInt8) :
    Checked.parseV1 R buf = Checked.lift (parseV1 R buf) ∧
    ∀ m, parseV1 R buf = .ok m →
      m.states.length = Bytes.decode (Bytes.slice buf 33 35) ∧
      buf.length = 35 + m.states.length * expectedStateLen m.states.length ∧
      ∀ s ∈ m.states, s.Targets m.states.length := by
  refine ⟨Checked.parseV1_safe R buf, ?_⟩
  intro m hm
  unfold parseV1 at hm
  simp only [check_ok, bind_ok] at hm
  obtain ⟨hlen, hrest, acc, hstates, hnew⟩ := hm
  obtain ⟨_, _, hm⟩ := bind_ok.mp hnew
  cases pure_ok.mp hm
  obtain ⟨hcount, htargets⟩ := parseNexts_targets hstates
  have hn : acc.2.length = Bytes.decode (Bytes.slice buf 33 35) := hcount
  refine ⟨hn, ?_, ?_⟩
  · have hbuf : 35 ≤ buf.length := Nat.not_lt.mp hlen
    have hdrop : (buf.drop 35).length =
        expectedStateLen (Bytes.decode (Bytes.slice buf 33 35)) *
          Bytes.decode (Bytes.slice buf 33 35) := not_not.mp hrest
    change buf.length = 35 + acc.2.length * expectedStateLen acc.2.length
    rw [List.length_drop] at hdrop
    rw [hn, Nat.mul_comm]
    omega
  · change ∀ s ∈ acc.2, s.Targets acc.2.length
    rw [hn]
    exact htargets

/-- The bytes of a machine with one state, which goes back to itself on every packet that it
receives. -/
def loopBytes : List UInt8 :=
  List.replicate 33 0 ++ [1, 0] ++ List.replicate 112 0 ++ [0xf0, 0x3f] ++ List.replicate 184 0

theorem loop_parsed : ∃ m, parseV1 Unit loopBytes = .ok m ∧ m.states.length = 1 ∧
    loopBytes.length = 35 + 1 * expectedStateLen 1 ∧ ∀ s ∈ m.states, s.Targets 1 := by
  have hparsed : (parseV1 Unit loopBytes).toOption.map (fun m => m.states.length) = some 1 := by
    decide +kernel
  obtain ⟨m, hm, hone⟩ := Option.map_eq_some_iff.mp hparsed
  have hok := toOption_eq_some.mp hm
  obtain ⟨_, hlen, htargets⟩ := (parse_v1_safe Unit loopBytes).2 m hok
  rw [hone] at hlen htargets
  exact ⟨m, hok, hone, hlen, htargets⟩

end Maybenot

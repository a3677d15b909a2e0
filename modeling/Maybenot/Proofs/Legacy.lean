import Mathlib.Data.Fintype.Basic
import Mathlib.Tactic.FinCases
import Maybenot.Layout

namespace Maybenot.V1
open Lib Bytes

section Read

@[simp] theorem float_length (x : F64) : (float x).length = 8 := encode_length _ _

@[simp] theorem flag_length (b : Bool) : (flag b).length = 1 := rfl

theorem readF64_float (x : F64) : readF64 (float x) = x := by
  have hlt : x.bits.toNat < 256 ^ 8 := x.bits.isLt
  unfold readF64 float
  rw [decode_encode hlt, BitVec.ofNat_toNat, BitVec.setWidth_eq]

theorem row_length (xs : List F64) : (row xs).length = 8 * xs.length := by
  induction xs with
  | nil => rfl
  | cons x xs ih =>
    rw [row, List.flatMap_cons, List.length_append, float_length, List.length_cons]
    rw [row] at ih
    omega

end Read

/-- What the parser takes a distribution to be. -/
def Dist.parsed (d : Dist) : Option Maybenot.Dist :=
  (bufToDistType d.code d.param1 d.param2).map fun dist => { dist, start := d.start, max := d.max }

@[simp] theorem Dist.enc_length (d : Dist) : d.enc.length = serializedDistSize := by
  simp [Dist.enc, serializedDistSize]

theorem parseDist_enc (d : Dist) : parseDist d.enc = .ok d.parsed := by
  have h0 : d.enc.drop 0 = encode 2 d.code ++ _ := rfl
  have h2 := drop_part (j := 2) h0 (by simp)
  have h10 := drop_part (j := 10) h2 (by simp)
  have h18 := drop_part (j := 18) h10 (by simp)
  have h26 : d.enc.drop 26 = float d.max ++ [] :=
    (drop_part h18 (by simp)).trans (List.append_nil _).symm
  have hcode : decode (encode 2 d.code) = d.code := decode_encode (by have := d.code.isLt; omega)
  unfold parseDist
  rw [if_neg (by simp), slice_part h0 (by simp), slice_part h2 (by simp), slice_part h10 (by simp),
    slice_part h18 (by simp), slice_part h26 (by simp)]
  simp only [readF64_float, hcode]
  rfl

/-- The parser loses the parameter of a distribution that is not kept, and nothing else. -/
theorem Dist.parsed_eq {d : Dist} (h : d.Integral) : d.parsed = d.toDist ↔ d.Kept := by
  have htrials (hcode : d.code = 4) : d.param1.val.toU64 = d.trials := by
    obtain ⟨n, hn, hval⟩ := h hcode
    unfold Dist.trials
    rw [hval]
    change min (n : Rat).floor.toNat (2 ^ 64 - 1) = (n : Rat).num.toNat
    have hfloor : (n : Rat).floor = n := Rat.floor_intCast n
    have hnum : (n : Rat).num = n := Rat.num_natCast n
    rw [hfloor, hnum, Int.toNat_natCast]
    exact Nat.min_eq_left hn
  obtain ⟨code, param1, param2, start, max⟩ := d
  unfold Dist.parsed Dist.toDist Dist.Kept
  fin_cases code
  case «4» =>
    have hval := htrials rfl
    simp [Dist.type, bufToDistType, hval]
  case «5» => simp [Dist.type, bufToDistType, eq_comm]
  case «7» => simp [Dist.type, bufToDistType, eq_comm]
  all_goals simp [Dist.type, bufToDistType]

theorem Dist.parsed_none {d : Dist} : d.parsed = none ↔ d.code = 0 := by
  obtain ⟨code, param1, param2, start, max⟩ := d
  unfold Dist.parsed
  fin_cases code <;> simp [bufToDistType]

theorem Dist.toDist_none {d : Dist} : d.toDist = none ↔ d.code = 0 := by
  obtain ⟨code, param1, param2, start, max⟩ := d
  unfold Dist.toDist Dist.type
  fin_cases code <;> simp

section Action

variable {n : Nat}

/-- The parser does not fail at a state that has what its action needs. -/
theorem parseAction_parsed {s : State n} (h : s.Valid) :
    parseAction s.timeout.parsed s.duration.parsed s.limit.parsed s.actionIsBlock s.bypass
      s.replace = .ok (s.action Dist.parsed) := by
  unfold parseAction State.action
  cases htimeout : s.timeout.parsed with
  | none => rfl
  | some timeout =>
    cases hblock : s.actionIsBlock with
    | false => rfl
    | true =>
      cases hduration : s.duration.parsed with
      | some duration => rfl
      | none =>
        have hcode : s.timeout.code ≠ 0 := fun h0 => by
          rw [Dist.parsed_none.mpr h0] at htimeout
          exact absurd htimeout (by simp)
        exact absurd (Dist.parsed_none.mp hduration) (h.duration hblock hcode)

/-- An action is parsed right exactly if all distributions that it has are. -/
theorem action_parsed_eq {s : State n} (h : s.Valid) :
    s.action Dist.parsed = s.action Dist.toDist ↔ ∀ d ∈ s.used, d.Kept := by
  have hdist : ∀ d ∈ [s.duration, s.limit, s.timeout], (d.parsed = d.toDist ↔ d.Kept) :=
    fun d hd => Dist.parsed_eq (h.integral d hd)
  have htimeout := hdist s.timeout (by simp)
  have hlimit := hdist s.limit (by simp)
  have hduration := hdist s.duration (by simp)
  unfold State.action State.used
  by_cases hcode : s.timeout.code = 0
  · rw [Dist.parsed_none.mpr hcode, Dist.toDist_none.mpr hcode, if_pos hcode]
    simp
  · obtain ⟨t, ht⟩ := Option.ne_none_iff_exists'.mp (mt Dist.parsed_none.mp hcode)
    obtain ⟨t', ht'⟩ := Option.ne_none_iff_exists'.mp (mt Dist.toDist_none.mp hcode)
    rw [if_neg hcode, ht, ht', Option.bind_some, Option.bind_some]
    rw [ht, ht', Option.some.injEq] at htimeout
    cases hblock : s.actionIsBlock with
    | false =>
      simp only [Bool.false_eq_true, if_false, Option.some.injEq, Action.sendPadding.injEq,
        true_and, List.forall_mem_cons, htimeout, hlimit]
      simp
    | true =>
      have hdur := h.duration hblock hcode
      obtain ⟨d, hd⟩ := Option.ne_none_iff_exists'.mp (mt Dist.parsed_none.mp hdur)
      obtain ⟨d', hd'⟩ := Option.ne_none_iff_exists'.mp (mt Dist.toDist_none.mp hdur)
      rw [hd, hd', Option.some.injEq] at hduration
      simp only [if_true, hd, hd', Option.map_some, Option.some.injEq, Action.blockOutgoing.injEq,
        true_and, List.forall_mem_cons, htimeout, hlimit, hduration]
      simp only [List.not_mem_nil, false_implies, implies_true, and_true]
      tauto

end Action

section Matrix

variable {n : Nat}

/-- One probability of a row, with its place in the row. -/
theorem parseTrans_float {buf rest : List UInt8} {r i : Nat} {x : F64} {event : Event}
    {transitions : Event → List Trans} (hbuf : buf.drop r = float x ++ rest)
    (hcancel : i = n → x.val = .fin 0) :
    parseTrans buf n event (r, transitions) i = .ok (r + 8, Function.update transitions event
      (transitions event ++ (target n (x, i)).toList)) := by
  unfold parseTrans target
  dsimp only
  rw [slice_part hbuf (by simp), readF64_float]
  by_cases hx : x.val = .fin 0
  · rw [if_neg (not_not.mpr hx), if_pos hx, Option.toList_none, List.append_nil,
      Function.update_eq_self]
  · rw [if_pos hx, if_neg hx, Option.toList_some]
    by_cases hlt : i < n
    · rw [if_pos hlt, if_pos hlt]
    · rw [if_neg hlt, if_neg fun h => hx (hcancel h), if_neg hlt]

/-- The rest of a row, from its place `i` on: every step pushes what its probability asks for. -/
theorem parseRow_from {buf rest : List UInt8} (event : Event) (xs : List F64) (i r : Nat)
    (transitions : Event → List Trans) (hbuf : buf.drop r = row xs ++ rest)
    (hcancel : ∀ x ∈ xs.zipIdx i, x.2 = n → x.1.val = .fin 0) :
    (List.range' i xs.length).foldlM (parseTrans buf n event) (r, transitions) =
      .ok (r + 8 * xs.length, Function.update transitions event
        (transitions event ++ (xs.zipIdx i).filterMap (target n))) := by
  induction xs generalizing i r transitions with
  | nil =>
    rw [List.zipIdx_nil, List.filterMap_nil, List.append_nil, Function.update_eq_self]
    rfl
  | cons x xs ih =>
    have hsplit : buf.drop r = float x ++ (row xs ++ rest) := by
      rw [hbuf, row, List.flatMap_cons, List.append_assoc]
      rfl
    rw [List.zipIdx_cons] at hcancel
    rw [List.length_cons, List.range'_succ, List.foldlM_cons,
      parseTrans_float hsplit (hcancel (x, i) List.mem_cons_self), ok_bind,
      ih (i + 1) (r + 8) _ (drop_part hsplit (by simp))
        fun y hy => hcancel y (List.mem_cons_of_mem _ hy)]
    rw [Function.update_self, Function.update_idem, List.zipIdx_cons, List.append_assoc,
      List.filterMap_cons, Nat.mul_succ, Nat.add_assoc, Nat.add_comm 8]
    congr 4
    cases target n (x, i) <;> rfl

/-- A row of a machine with `n` states that has no cancel. -/
def FullRow (n : Nat) (xs : List F64) : Prop :=
  xs.length = n + 2 ∧ ∀ x ∈ xs.zipIdx, x.2 = n → x.1.val = .fin 0

/-- The transitions after the row of an event. -/
def withRow (n : Nat) (transitions : Event → List Trans) (row : Event × List F64) :
    Event → List Trans :=
  Function.update transitions row.1 (transitions row.1 ++ targets n row.2)

theorem parseRow_row {buf rest : List UInt8} {event : Event} {xs : List F64} {r : Nat}
    {transitions : Event → List Trans} (hxs : FullRow n xs)
    (hbuf : buf.drop r = row xs ++ rest) :
    parseRow buf n (r, transitions) event =
      .ok (r + 8 * (n + 2), withRow n transitions (event, xs)) := by
  have hrow := parseRow_from event xs 0 r transitions hbuf hxs.2
  rw [hxs.1] at hrow
  unfold parseRow
  rw [List.range_eq_range']
  exact hrow

/-- The rows of some events. -/
theorem parseRows {buf rest : List UInt8} (events : List Event) (rows : List (List F64)) (r : Nat)
    (transitions : Event → List Trans) (hlen : events.length = rows.length)
    (hrows : ∀ xs ∈ rows, FullRow n xs) (hbuf : buf.drop r = rows.flatMap row ++ rest) :
    events.foldlM (parseRow buf n) (r, transitions) =
      .ok (r + 8 * (n + 2) * rows.length, (events.zip rows).foldl (withRow n) transitions) := by
  induction events generalizing rows r transitions with
  | nil =>
    cases rows with
    | nil => rfl
    | cons xs rows => exact absurd hlen (by simp)
  | cons event events ih =>
    cases rows with
    | nil => exact absurd hlen (by simp)
    | cons xs rows =>
      have hxs := hrows xs List.mem_cons_self
      have hsplit : buf.drop r = row xs ++ (rows.flatMap row ++ rest) := by
        rw [hbuf, List.flatMap_cons, List.append_assoc]
      have hnext : buf.drop (r + 8 * (n + 2)) = rows.flatMap row ++ rest :=
        drop_part hsplit (by rw [row_length, hxs.1])
      have hoffset : r + 8 * (n + 2) + 8 * (n + 2) * rows.length =
          r + 8 * (n + 2) * (xs :: rows).length := by
        rw [List.length_cons, Nat.mul_add_one (8 * (n + 2)) rows.length, Nat.add_assoc,
          Nat.add_comm (8 * (n + 2))]
      rw [List.foldlM_cons, parseRow_row hxs hsplit, ok_bind,
        ih rows _ _ (Nat.succ.inj hlen) (fun ys hys => hrows ys (List.mem_cons_of_mem _ hys)) hnext,
        List.zip_cons_cons, List.foldl_cons, hoffset]

end Matrix

section State

variable {n : Nat}

theorem fullRow {s : State n} (h : s.Valid) {i : Fin 8} (hi : i ≠ 7) :
    FullRow n (s.nextState i).toList := by
  refine ⟨by simp, ?_⟩
  rintro ⟨x, j⟩ hx hj
  change j = n at hj
  subst hj
  obtain ⟨_, hget⟩ := List.mem_zipIdx_iff_getElem?.mp hx |> List.getElem?_eq_some_iff.mp
  rw [← hget]
  exact h.noCancel i hi

theorem rows_length (s : State n) : (s.rows.flatMap row).length = (n + 2) * 8 * 8 := by
  simp only [State.rows, List.length_flatMap, List.map_map, Function.comp_def, row_length,
    Vector.length_toList]
  simp
  omega

@[simp] theorem State.enc_length (s : State n) : s.enc.length = expectedStateLen n := by
  simp only [State.enc, List.length_append, Dist.enc_length, flag_length, rows_length]
  simp only [expectedStateLen, v1EventsIter, List.length_cons, List.length_nil]
  omega

/-- The rows of the events of version 1 are all that the transitions of a state take. -/
theorem transitions_rows (s : State n) :
    (v1EventsIter.zip (s.rows.take 7)).foldl (withRow n) (fun _ => []) = s.transitions := by
  have hzip : v1EventsIter.zip (s.rows.take 7) =
      [(.normalRecv, (s.nextState 0).toList), (.paddingRecv, (s.nextState 1).toList),
        (.normalSent, (s.nextState 2).toList), (.paddingSent, (s.nextState 3).toList),
        (.blockingBegin, (s.nextState 4).toList), (.blockingEnd, (s.nextState 5).toList),
        (.limitReached, (s.nextState 6).toList)] := rfl
  rw [hzip]
  funext e
  cases e <;> simp [withRow, State.transitions, rowOf, Function.update]

/-- What the parser takes a state to be. -/
def State.parsed (s : State n) : Maybenot.State :=
  { Maybenot.State.new s.transitions with action := s.action Dist.parsed }

theorem getD_flag {buf rest : List UInt8} {i : Nat} {b : Bool}
    (h : buf.drop i = flag b ++ rest) : (buf.getD i 0 == 1) = b := by
  have hcons : buf.drop i = (if b then 1 else 0) :: rest := h
  rw [getD_part hcons]
  cases b <;> rfl

theorem parseState_enc {s : State n} (h : s.Valid) : parseState s.enc n = .ok s.parsed := by
  let r := 0 + serializedDistSize + serializedDistSize + serializedDistSize
  have h0 : s.enc.drop 0 = s.duration.enc ++ _ := rfl
  have h1 := drop_part (j := 0 + serializedDistSize) h0 (by simp)
  have h2 := drop_part (j := 0 + serializedDistSize + serializedDistSize) h1 (by simp)
  have h3 := drop_part (j := r) h2 (by simp [r])
  have h4 := drop_part (j := r + 1) h3 rfl
  have h5 := drop_part (j := r + 1 + 1) h4 rfl
  have h6 := drop_part (j := r + 1 + 1 + 1) h5 rfl
  have hrows : s.enc.drop (r + 1 + 1 + 1 + 1) =
      (s.rows.take 7).flatMap row ++ (s.rows.drop 7).flatMap row := by
    rw [← List.flatMap_append, List.take_append_drop]
    exact drop_part h6 rfl
  have hfull : ∀ xs ∈ s.rows.take 7, FullRow n xs := by
    have htake : s.rows.take 7 = [0, 1, 2, 3, 4, 5, 6].map fun i => (s.nextState i).toList := rfl
    rw [htake]
    intro xs hxs
    obtain ⟨i, hi, rfl⟩ := List.mem_map.mp hxs
    apply fullRow h
    rintro rfl
    exact absurd hi (by decide)
  have hmatrix := parseRows v1EventsIter _ _ (fun _ => []) rfl hfull hrows
  rw [transitions_rows] at hmatrix
  unfold parseState
  rw [if_neg (by simp)]
  dsimp only
  rw [slice_part h0 (by simp), slice_part h1 (by simp), slice_part h2 (by simp)]
  simp only [parseDist_enc, ok_bind]
  rw [getD_flag h3, getD_flag h4, getD_flag h5, parseAction_parsed h, ok_bind, hmatrix]
  rfl

end State

section Machine

/-- The states of a machine are parsed one after the other. -/
theorem parseNexts {n : Nat} {buf rest : List UInt8} (states : List (State n)) (xs : List Nat)
    (r : Nat) (done : List Maybenot.State) (hlen : xs.length = states.length)
    (hvalid : ∀ s ∈ states, s.Valid) (hbuf : buf.drop r = states.flatMap State.enc ++ rest) :
    ∃ r', xs.foldlM (fun acc _ => parseNext buf n acc) (r, done) =
      .ok (r', done ++ states.map State.parsed) := by
  induction states generalizing xs r done with
  | nil =>
    obtain rfl := List.length_eq_zero_iff.mp hlen
    exact ⟨r, by rw [List.map_nil, List.append_nil]; rfl⟩
  | cons s states ih =>
    cases xs with
    | nil => exact absurd hlen (by simp)
    | cons x xs =>
      have hsplit : buf.drop r = s.enc ++ (states.flatMap State.enc ++ rest) := by
        rw [hbuf, List.flatMap_cons, List.append_assoc]
      have hnext : buf.drop (r + expectedStateLen n) = states.flatMap State.enc ++ rest :=
        drop_part hsplit (by simp)
      have hstep : parseNext buf n (r, done) =
          .ok (r + expectedStateLen n, done ++ [s.parsed]) := by
        unfold parseNext
        dsimp only
        rw [slice_part hsplit (by simp), parseState_enc (hvalid s List.mem_cons_self)]
        rfl
      obtain ⟨r', hr'⟩ := ih xs (r + expectedStateLen n) (done ++ [s.parsed])
        (Nat.succ.inj hlen) (fun t ht => hvalid t (List.mem_cons_of_mem _ ht)) hnext
      refine ⟨r', ?_⟩
      rw [List.foldlM_cons, hstep, ok_bind, hr', List.map_cons, List.append_assoc]
      rfl

theorem states_length {n : Nat} (states : List (State n)) :
    (states.flatMap State.enc).length = expectedStateLen n * states.length := by
  induction states with
  | nil => rfl
  | cons s states ih =>
    rw [List.flatMap_cons, List.length_append, ih, State.enc_length, List.length_cons,
      Nat.mul_succ, Nat.add_comm]

variable {R : Type} [RngCore R]

/-- The parser makes a machine of the limits as they are and of the states as it takes them
to be. -/
theorem parseV1_enc {m : Machine} (h : m.Valid) :
    parseV1 R m.enc = Machine.new R m.allowedPaddingPackets.toNat m.maxPaddingFrac
      m.allowedBlockedMicrosec.toNat m.maxBlockingFrac (m.states.toList.map State.parsed) := by
  have h0 : m.enc.drop 0 = encode 8 m.allowedPaddingPackets.toNat ++ _ := rfl
  have h1 := drop_part (j := 0 + 8) h0 (by simp)
  have h2 := drop_part (j := 0 + 8 + 8) h1 (by simp)
  have h3 := drop_part (j := 0 + 8 + 8 + 8) h2 (by simp)
  have h4 := drop_part (j := 0 + 8 + 8 + 8 + 8) h3 (by simp)
  have h5 := drop_part (j := 0 + 8 + 8 + 8 + 8 + 1) h4 (by simp)
  have h6 : m.enc.drop (0 + 8 + 8 + 8 + 8 + 1 + 2) = m.states.toList.flatMap State.enc ++ [] :=
    (drop_part h5 (by simp)).trans (List.append_nil _).symm
  have hpadding : decode (encode 8 m.allowedPaddingPackets.toNat) = m.allowedPaddingPackets.toNat :=
    decode_encode m.allowedPaddingPackets.toNat_lt
  have hblocked : decode (encode 8 m.allowedBlockedMicrosec.toNat) =
      m.allowedBlockedMicrosec.toNat := decode_encode m.allowedBlockedMicrosec.toNat_lt
  have hstates : decode (encode 2 m.numStates.toNat) = m.numStates.toNat :=
    decode_encode m.numStates.toNat_lt
  have hrest : (m.enc.drop (0 + 8 + 8 + 8 + 8 + 1 + 2)).length =
      expectedStateLen m.numStates.toNat * m.numStates.toNat := by
    rw [h6, List.append_nil, states_length, Vector.length_toList]
  obtain ⟨r, hloop⟩ := parseNexts m.states.toList (List.range m.numStates.toNat)
    (0 + 8 + 8 + 8 + 8 + 1 + 2) [] (by simp) h h6
  unfold parseV1
  rw [if_neg (by simp [Machine.enc]; omega)]
  dsimp only
  rw [slice_part h0 (by simp), slice_part h1 (by simp), slice_part h2 (by simp),
    slice_part h3 (by simp), slice_part h5 (by simp), hpadding, hblocked, hstates, readF64_float,
    readF64_float, hrest]
  rw [if_neg (not_not.mpr rfl), hloop]
  rfl

/-- A machine of version 1 is parsed to the machine that it stands for exactly if the
parameters of its geometric and Poisson distributions are not lost. -/
theorem parse_loses_parameters {m : Machine} (h : m.Valid)
    (hnew : Machine.new R m.toMachine.allowedPaddingPackets m.toMachine.maxPaddingFrac
      m.toMachine.allowedBlockedMicrosec m.toMachine.maxBlockingFrac m.toMachine.states =
        .ok m.toMachine) :
    parseV1 R m.enc = .ok m.toMachine ↔ ∀ s ∈ m.states.toList, ∀ d ∈ s.used, d.Kept := by
  rw [parseV1_enc h]
  have hstate : ∀ s ∈ m.states.toList,
      (s.parsed = s.toState ↔ ∀ d ∈ s.used, d.Kept) := by
    intro s hs
    rw [← action_parsed_eq (h s hs)]
    unfold State.parsed State.toState
    simp
  have hmap : m.states.toList.map State.parsed = m.toMachine.states ↔
      ∀ s ∈ m.states.toList, ∀ d ∈ s.used, d.Kept := by
    apply List.map_inj_left.trans
    constructor
    · exact fun hall s hs => (hstate s hs).mp (hall s hs)
    · exact fun hall s hs => (hstate s hs).mpr (hall s hs)
  rw [← hmap]
  constructor
  · intro hparse
    obtain ⟨_, _, hm⟩ := bind_ok.mp hparse
    exact congrArg Maybenot.Machine.states (pure_ok.mp hm)
  · intro hstates
    rw [hstates]
    exact hnew

end Machine

section Example

/-- Every packet that is sent leads to the only state. -/
def alwaysSent (i : Fin 8) : Vector F64 3 :=
  if i.val = 2 then #v[Flt.ofRat 1, Flt.ofRat 0, Flt.ofRat 0]
  else #v[Flt.ofRat 0, Flt.ofRat 0, Flt.ofRat 0]

/-- A machine of one state that goes back to itself and pads on every packet that is sent, with a
timeout of the given kind and at most ten packets. -/
def padder (code : Fin 11) (param1 param2 : F64) : Machine where
  allowedPaddingPackets := 100
  maxPaddingFrac := Flt.ofRat 1
  allowedBlockedMicrosec := 0
  maxBlockingFrac := Flt.ofRat 0
  includeSmallPackets := true
  numStates := 1
  states := #v[{
    duration := ⟨⟨0, by decide⟩, Flt.ofRat 0, Flt.ofRat 0, Flt.ofRat 0, Flt.ofRat 0⟩
    limit := ⟨⟨4, by decide⟩, Flt.ofRat 10, Flt.ofRat 1, Flt.ofRat 0, Flt.ofRat 0⟩
    timeout := ⟨code, param1, param2, Flt.ofRat 0, Flt.ofRat 0⟩
    actionIsBlock := false
    bypass := true
    replace := true
    limitIncludesNonpadding := false
    nextState := alwaysSent }]

theorem padder_valid {code : Fin 11} {param1 param2 : F64} (h : code ≠ 4) :
    (padder code param1 param2).Valid := by
  have hcancel : ∀ i : Fin 8, i ≠ 7 → (alwaysSent i)[1].val = .fin 0 := by decide +kernel
  intro s hs
  obtain rfl := List.mem_singleton.mp hs
  refine ⟨?_, by simp, hcancel⟩
  intro d hd
  simp only [List.mem_cons, List.not_mem_nil, or_false] at hd
  rcases hd with rfl | rfl | rfl
  · exact fun hcode => absurd hcode (by decide)
  · exact fun _ => ⟨10, by decide, by decide +kernel⟩
  · exact fun hcode => absurd hcode h

/-- A machine with an exact timeout is parsed right. -/
theorem uniform_parsed : parseV1 Unit (padder 1 (Flt.ofRat 5) (Flt.ofRat 5)).enc =
    .ok (padder 1 (Flt.ofRat 5) (Flt.ofRat 5)).toMachine := by
  apply (parse_loses_parameters (padder_valid (by decide)) (by decide +kernel)).mpr
  decide +kernel

/-- A geometric timeout is parsed to one that is always zero. -/
theorem geometric_lost : (padder 5 (Flt.ofRat (1 / 2)) (Flt.ofRat 0)).Valid ∧
    (let m := (padder 5 (Flt.ofRat (1 / 2)) (Flt.ofRat 0)).toMachine
     Machine.new Unit m.allowedPaddingPackets m.maxPaddingFrac m.allowedBlockedMicrosec
       m.maxBlockingFrac m.states = .ok m) ∧
    parseV1 Unit (padder 5 (Flt.ofRat (1 / 2)) (Flt.ofRat 0)).enc ≠
      .ok (padder 5 (Flt.ofRat (1 / 2)) (Flt.ofRat 0)).toMachine :=
  ⟨padder_valid (by decide), by decide +kernel, by decide +kernel⟩

end Example

end Maybenot.V1

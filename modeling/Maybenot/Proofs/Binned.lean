import Maybenot.Proofs.Frame
import Maybenot.Sim.Integration
import Mathlib.Algebra.BigOperators.Group.List.Basic
import Mathlib.Data.List.Chain

namespace Maybenot.BinDist
open Lib Framework

/-- The probability of the first `n` bins. -/
def upTo (bins : List Bin) (n : Nat) : Rat := ((bins.take n).map Bin.prob).sum

/-- A bin that a duration can be drawn from: it has one value or a range to draw from, and the
durations of its values are neither all negative nor all too long. -/
structure Usable (range : F64 × F64) : Prop where
  draws : (range.1.val = range.2.val ∧ range.1.val ≠ .nan) ∨ Drawable range.1 range.2
  high : (Val.fin 0).le (micros range.2).val = true
  low : (micros range.1).val.lt (.fin (2 ^ 64)) = true

/-- Bins, in order, that answer every draw. -/
structure Fair (bins : List Bin) : Prop where
  any : bins ≠ []
  weights : ∀ b ∈ bins.tail, 0 ≤ b.prob
  total : 1 ≤ upTo bins bins.length
  usable : ∀ i b, bins[i]? = some b → 0 ≤ upTo bins (i + 1) → upTo bins i < 1 → Usable b.range

/-- A duration inside a bin, to whole microseconds. -/
def Inside (range : F64 × F64) (t : Duration) : Prop :=
  ∃ n : Nat, t = Duration.fromMicros n ∧ (micros range.1).val.lt (.fin (n + 1)) = true ∧
    (Val.fin n).le (micros range.2).val = true

/-- The cumulative probability that a bin starts at. -/
def before (d : BinDist) (i : Nat) : Rat :=
  if i = 0 then 0 else (d.cumulativeProbabilities[i - 1]?).getD 0

/-- The draw is in the interval of cumulative probability of a bin. -/
def Covers (d : BinDist) (i : Nat) (u : Rat) : Prop :=
  d.before i ≤ u ∧ ∃ c, d.cumulativeProbabilities[i]? = some c ∧ u ≤ c

/-- Whatever is drawn, a sample is a duration inside the bin that the search finds, and the draw is
in the interval of that bin. -/
def Safe (d : BinDist) : Prop :=
  ∀ search genRange, Searches search → DrawsRange genRange → ∀ u : Rat, 0 ≤ u → u < 1 →
    ∃ range t, d.bins[d.binIndex search u]? = some range ∧ d.sample search genRange u = .ok t ∧
      Inside range t ∧ d.Covers (d.binIndex search u) u

theorem upTo_cons (b : Bin) (bins : List Bin) (n : Nat) :
    upTo (b :: bins) (n + 1) = b.prob + upTo bins n := by
  simp [upTo]

theorem accumulate_get (total : Rat) {bins : List Bin} {i : Nat} (hi : i < bins.length) :
    (accumulate total bins)[i]? = some (total + upTo bins (i + 1)) := by
  induction bins generalizing total i with
  | nil => exact absurd hi (Nat.not_lt_zero i)
  | cons b bs ih =>
    rw [accumulate, upTo_cons]
    cases i with
    | zero => simp [upTo]
    | succ i =>
      rw [List.getElem?_cons_succ, ih _ (Nat.lt_of_succ_lt_succ hi), add_assoc]

theorem cumulative_get {bins : List Bin} {i : Nat} (hi : i < bins.length) :
    (ofSorted bins).cumulativeProbabilities[i]? = some (upTo bins (i + 1)) := by
  rw [ofSorted, accumulate_get 0 hi, zero_add]

theorem cumulative_length (bins : List Bin) :
    (ofSorted bins).cumulativeProbabilities.length = bins.length := accumulate_length 0 bins

theorem before_eq {bins : List Bin} {i : Nat} (hi : i ≤ bins.length) :
    (ofSorted bins).before i = upTo bins i := by
  cases i with
  | zero => simp [before, upTo]
  | succ i =>
    rw [before, if_neg (Nat.succ_ne_zero i), Nat.add_sub_cancel, cumulative_get hi]
    rfl

theorem bins_get {bins : List Bin} {i : Nat} {b : Bin} (hb : bins[i]? = some b) :
    (ofSorted bins).bins[i]? = some b.range := by
  change (bins.map Bin.range)[i]? = some b.range
  rw [List.getElem?_map, hb]
  rfl

theorem binIndex_ok {search : List Rat → Rat → Except Nat Nat} {d : BinDist} {u : Rat} {i : Nat}
    (h : search d.cumulativeProbabilities u = .ok i) : d.binIndex search u = i := by
  unfold binIndex
  rw [h]

theorem chain_accumulate (total : Rat) (bins : List Bin) :
    (total :: accumulate total bins).IsChain (· ≤ ·) ↔ ∀ b ∈ bins, 0 ≤ b.prob := by
  induction bins generalizing total with
  | nil => simp [accumulate]
  | cons b bs ih =>
    rw [accumulate, List.isChain_cons_cons, ih, List.forall_mem_cons, le_add_iff_nonneg_right]

/-- The table is sorted exactly if no bin but the first has a negative probability. -/
theorem sorted_iff (bins : List Bin) :
    (ofSorted bins).cumulativeProbabilities.Pairwise (· ≤ ·) ↔ ∀ b ∈ bins.tail, 0 ≤ b.prob := by
  rw [← List.isChain_iff_pairwise]
  cases bins with
  | nil => simp [ofSorted, accumulate]
  | cons b bs => exact chain_accumulate (0 + b.prob) bs

theorem thousand_val : (Flt.ofRat 1000 : F64).val = .fin 1000 := by decide +kernel

/-- In microseconds the order is the same. -/
theorem micros_mono {x y : F64} (h : x.val.le y.val = true) :
    (micros x).val.le (micros y).val = true :=
  Flt.mul_mono (by decide) thousand_val (by norm_num) h

/-- A value between the ends of a bin makes a duration inside it. -/
theorem inside_of {range : F64 × F64} {x : F64} (hlow : range.1.val.le x.val = true)
    (hhigh : x.val.le range.2.val = true) (hrange : Usable range) :
    Inside range (Duration.fromMicros (micros x).val.toU64) := by
  obtain ⟨hlt, hle⟩ := Val.toU64_between (micros_mono hlow) (micros_mono hhigh) hrange.high
    hrange.low
  exact ⟨_, rfl, hlt, hle⟩

theorem sampleBin_inside {genRange : F64 → F64 → Exec F64} (hgen : DrawsRange genRange)
    {range : F64 × F64} (hrange : Usable range) :
    ∃ t, sampleBin genRange range = .ok t ∧ Inside range t := by
  unfold sampleBin
  by_cases hone : range.1.val = range.2.val ∧ range.1.val ≠ .nan
  · rw [if_pos hone]
    have hself := Val.le_self hone.2
    exact ⟨_, rfl, inside_of hself (hone.1 ▸ hself) hrange⟩
  · rw [if_neg hone]
    obtain ⟨x, hx, hlow, hhigh⟩ := hgen.draws (hrange.draws.resolve_left hone)
    exact ⟨_, bind_eq hx, inside_of hlow (Val.le_of_lt hhigh) hrange⟩

/-- A bin that answers with a duration inside it is usable. -/
theorem usable_of {genRange : F64 → F64 → Exec F64} (hgen : DrawsRange genRange)
    {range : F64 × F64} {t : Duration} (h : sampleBin genRange range = .ok t)
    (ht : Inside range t) : Usable range := by
  have hmicros : ∃ n, n < 2 ^ 64 ∧ t = Duration.fromMicros n := by
    unfold sampleBin at h
    split at h
    · exact ⟨_, Val.toU64_lt _, (pure_ok.mp h).symm⟩
    · obtain ⟨x, _, h⟩ := bind_ok.mp h
      exact ⟨_, Val.toU64_lt _, (pure_ok.mp h).symm⟩
  obtain ⟨n, hn, rfl⟩ := hmicros
  obtain ⟨k, hk, hlow, hhigh⟩ := ht
  obtain rfl : n = k := Nat.eq_of_mul_eq_mul_right (by decide) hk
  refine ⟨?_, ?_, ?_⟩
  · by_contra hno
    obtain ⟨hone, hdraw⟩ := not_or.mp hno
    obtain ⟨e, he⟩ := hgen.fails hdraw
    rw [sampleBin, if_neg hone, he] at h
    cases h
  · apply Val.le_trans _ hhigh
    exact decide_eq_true (by positivity)
  · apply Val.lt_of_lt_of_le hlow
    apply decide_eq_true
    exact_mod_cast hn

/-- The bin that a search finds on a sorted table has the draw in its interval, if the table goes
up to the draw. -/
theorem binIndex_covers {bins : List Bin} {search : List Rat → Rat → Except Nat Nat}
    (hsearch : Searches search) {u : Rat} (hweights : ∀ b ∈ bins.tail, 0 ≤ b.prob) (hu : 0 ≤ u)
    (htotal : bins ≠ [] ∧ u < upTo bins bins.length) :
    (ofSorted bins).binIndex search u < bins.length ∧
      upTo bins ((ofSorted bins).binIndex search u) ≤ u ∧
      u ≤ upTo bins ((ofSorted bins).binIndex search u + 1) := by
  have hs := (sorted_iff bins).mpr hweights
  have hlen := cumulative_length bins
  have hpos := List.length_pos_of_ne_nil htotal.1
  unfold binIndex
  cases hfound : search (ofSorted bins).cumulativeProbabilities u with
  | ok i =>
    have hi := hsearch.found hs hfound
    have hlt : i < bins.length := hlen ▸ (List.getElem?_eq_some_iff.mp hi).1
    have hcum : upTo bins (i + 1) = u :=
      Option.some.inj ((cumulative_get hlt).symm.trans hi)
    refine ⟨hlt, ?_, hcum.ge⟩
    cases i with
    | zero => simpa [upTo] using hu
    | succ i =>
      have hprev := cumulative_get (Nat.lt_of_succ_lt hlt)
      exact getElem?_le hs hprev hi (Nat.le_succ i)
  | error i =>
    obtain ⟨hle, hsides⟩ := hsearch.absent hs hfound
    have hlt : i < bins.length := by
      by_contra hend
      -- all sums would be less than the draw, also the last one
      have hlast := cumulative_get (Nat.sub_lt hpos Nat.one_pos)
      rw [Nat.sub_add_cancel hpos] at hlast
      exact absurd ((hsides _ _ hlast).1 (by omega)) (not_lt.mpr htotal.2.le)
    refine ⟨hlt, ?_, ((hsides _ _ (cumulative_get hlt)).2 le_rfl).le⟩
    cases i with
    | zero => simpa [upTo] using hu
    | succ i =>
      exact ((hsides _ _ (cumulative_get (Nat.lt_of_succ_lt hlt))).1 (Nat.lt_succ_self i)).le

theorem safe_of_fair {bins : List Bin} (hf : Fair bins) : (ofSorted bins).Safe := by
  intro search genRange hsearch hgen u hu hu1
  obtain ⟨hlt, hbefore, hafter⟩ :=
    binIndex_covers hsearch hf.weights hu ⟨hf.any, hu1.trans_le hf.total⟩
  obtain ⟨b, hb⟩ := exists_getElem? hlt
  have hrange := bins_get hb
  have husable := hf.usable _ b hb (hu.trans hafter) (hbefore.trans_lt hu1)
  obtain ⟨t, ht, hinside⟩ := sampleBin_inside hgen husable
  refine ⟨b.range, t, hrange, (bind_eq (at?_ok.mpr hrange)).trans ht, hinside, ?_, ?_⟩
  · rw [before_eq hlt.le]
    exact hbefore
  · exact ⟨_, cumulative_get hlt, hafter⟩

/-- The bin that some search finds for a draw is usable. -/
theorem Safe.usable {bins : List Bin} (h : (ofSorted bins).Safe)
    {search : List Rat → Rat → Except Nat Nat} (hsearch : Searches search) {u : Rat} (hu : 0 ≤ u)
    (hu1 : u < 1) {i : Nat} (hi : (ofSorted bins).binIndex search u = i) {b : Bin}
    (hb : bins[i]? = some b) : Usable b.range := by
  subst hi
  obtain ⟨range, t, hrange, ht, hinside, _⟩ := h search drawLowest hsearch drawLowest_draws u hu hu1
  obtain rfl := Option.some.inj (hrange.symm.trans (bins_get hb))
  have hsample := (bind_eq (at?_ok.mpr hrange)).symm.trans ht
  exact usable_of drawLowest_draws hsample hinside

/-- A draw above a sum that is less than one. -/
theorem draw_above {c : Rat} (hc : c < 1) : ∃ u : Rat, 0 ≤ u ∧ u < 1 ∧ c < u := by
  refine ⟨max 0 ((c + 1) / 2), le_max_left _ _, max_lt one_pos ?_, lt_max_of_lt_right ?_⟩
  · linarith
  · linarith

theorem upTo_mono {bins : List Bin} (hweights : ∀ b ∈ bins.tail, 0 ≤ b.prob) {i j : Nat}
    (hij : i ≤ j) (hj : j < bins.length) : upTo bins (i + 1) ≤ upTo bins (j + 1) :=
  getElem?_le ((sorted_iff bins).mpr hweights) (cumulative_get (hij.trans_lt hj))
    (cumulative_get hj) hij

theorem Safe.any {bins : List Bin} (h : (ofSorted bins).Safe) : bins ≠ [] := by
  rintro rfl
  obtain ⟨range, _, hrange, _⟩ :=
    h binarySearch drawLowest binarySearch_searches drawLowest_draws 0 le_rfl one_pos
  cases hrange

/-- On a table that is not sorted a search may come to any place, also to none. -/
theorem Safe.weights {bins : List Bin} (h : (ofSorted bins).Safe) :
    ∀ b ∈ bins.tail, 0 ≤ b.prob := by
  by_contra hno
  have hunsorted := (sorted_iff bins).not.mpr hno
  have hsearch := binarySearch_searches.answerAt (x := (0 : Rat)) (i := bins.length)
    fun hs => absurd hs hunsorted
  obtain ⟨range, _, hrange, _⟩ := h _ drawLowest hsearch drawLowest_draws 0 le_rfl one_pos
  rw [binIndex_ok (answerAt_self _ _ 0 bins.length)] at hrange
  have hlt := (List.getElem?_eq_some_iff.mp hrange).1
  rw [ofSorted, List.length_map] at hlt
  exact absurd hlt (Nat.lt_irrefl _)

theorem Safe.total {bins : List Bin} (h : (ofSorted bins).Safe) : 1 ≤ upTo bins bins.length := by
  by_contra hless
  obtain ⟨u, hu, hu1, habove⟩ := draw_above (not_le.mp hless)
  obtain ⟨range, _, hrange, _, _, _, c, hc, hle⟩ :=
    h binarySearch drawLowest binarySearch_searches drawLowest_draws u hu hu1
  have hlt := (List.getElem?_eq_some_iff.mp hc).1
  rw [cumulative_length] at hlt
  rw [cumulative_get hlt] at hc
  obtain rfl := Option.some.inj hc
  have hlast := upTo_mono h.weights (Nat.le_sub_one_of_lt hlt) (by omega)
  rw [Nat.sub_add_cancel (by omega)] at hlast
  linarith

theorem fair_of_safe {bins : List Bin} (h : (ofSorted bins).Safe) : Fair bins := by
  refine ⟨h.any, h.weights, h.total, fun i b hb hafter hbefore => ?_⟩
  have hlt := (List.getElem?_eq_some_iff.mp hb).1
  by_cases hone : upTo bins (i + 1) < 1
  · -- the sum itself can be drawn, and then the search may find this bin
    have hsearch := binarySearch_searches.answerAt fun _ => cumulative_get hlt
    exact h.usable hsearch hafter hone (binIndex_ok (answerAt_self _ _ _ _)) hb
  · -- a draw between the sums before and after leaves no other bin
    obtain ⟨u, hu, hu1, habove⟩ := draw_above hbefore
    have hend : u < upTo bins bins.length := hu1.trans_le h.total
    obtain ⟨hlen, hlow, hhigh⟩ :=
      binIndex_covers binarySearch_searches h.weights hu ⟨h.any, hend⟩
    refine h.usable binarySearch_searches hu hu1 ?_ hb
    generalize (ofSorted bins).binIndex binarySearch u = j at *
    rcases Nat.lt_trichotomy j i with hji | rfl | hij
    · obtain ⟨k, rfl⟩ := Nat.exists_eq_add_of_lt hji
      have := upTo_mono h.weights (Nat.le_add_right j k) (Nat.lt_of_succ_lt hlt)
      linarith
    · rfl
    · obtain ⟨k, rfl⟩ := Nat.exists_eq_add_of_lt hij
      have := upTo_mono h.weights (Nat.le_add_right i k) (Nat.lt_of_succ_lt hlen)
      linarith

/-- Bins that are accepted answer every draw exactly if they are fair. -/
theorem accepted_safe {fromStr : List Char → Except String (List (List Char × Rat))}
    {jsonInput : List Char} {d : BinDist} (h : new fromStr jsonInput = .ok (.ok d)) :
    ∃ entries bins sorted, fromStr jsonInput = .ok entries ∧
      entries.mapM parseBin = .ok bins ∧ sortBins bins = .ok sorted ∧ d = ofSorted sorted ∧
      (d.Safe ↔ Fair sorted) := by
  unfold new at h
  split at h
  · exact absurd (Except.ok.inj h) (by simp)
  · next bins hbins =>
    obtain ⟨entries, hentries, hparsed⟩ := bind_ok.mp hbins
    obtain ⟨sorted, hsorted, hd⟩ := bind_ok.mp h
    obtain rfl : ofSorted sorted = d := Except.ok.inj (pure_ok.mp hd)
    exact ⟨entries, bins, sorted, hentries, hparsed, hsorted, rfl, fair_of_safe, safe_of_fair⟩

/-- Two bins of half a millisecond, alike in probability. -/
def halves : List Char := "\x7b\"(0.0, 0.5)\": 0.5, \"(0.5, 1.0)\": 0.5\x7d".toList

/-- One bin of half a millisecond, with half of the probability. -/
def half : List Char := "\x7b\"(0.0, 0.5)\": 0.5\x7d".toList

/-- What the JSON parser makes of these two texts. -/
def parsedHalves (s : List Char) : Except String (List (List Char × Rat)) :=
  if s = halves then .ok [("(0.5, 1.0)".toList, 1 / 2), ("(0.0, 0.5)".toList, 1 / 2)]
  else if s = half then .ok [("(0.0, 0.5)".toList, 1 / 2)]
  else .error "expected value"

def lowerHalf : Bin := ⟨(Flt.ofRat 0, Flt.ofRat (1 / 2)), 1 / 2⟩

def upperHalf : Bin := ⟨(Flt.ofRat (1 / 2), Flt.ofRat 1), 1 / 2⟩

theorem halves_safe : ∃ d, new parsedHalves halves = .ok (.ok d) ∧
    d = ofSorted [lowerHalf, upperHalf] ∧ d.Safe := by
  have hnew : new parsedHalves halves = .ok (.ok (ofSorted [lowerHalf, upperHalf])) := by
    decide +kernel
  refine ⟨_, hnew, rfl, ?_⟩
  obtain ⟨entries, bins, sorted, hentries, hbins, hsorted, _, hiff⟩ := accepted_safe hnew
  have hrun : (parsedHalves halves >>= fun entries => entries.mapM parseBin) =
      .ok [upperHalf, lowerHalf] := by decide +kernel
  obtain rfl : bins = [upperHalf, lowerHalf] :=
    Except.ok.inj (((bind_eq hentries).trans hbins).symm.trans hrun)
  have hsort : sortBins [upperHalf, lowerHalf] = .ok [lowerHalf, upperHalf] := by decide +kernel
  obtain rfl : sorted = [lowerHalf, upperHalf] := Except.ok.inj (hsorted.symm.trans hsort)
  have hlower : Usable lowerHalf.range :=
    ⟨.inr (by decide +kernel), by decide +kernel, by decide +kernel⟩
  have hupper : Usable upperHalf.range :=
    ⟨.inr (by decide +kernel), by decide +kernel, by decide +kernel⟩
  apply hiff.mpr
  refine ⟨by simp, by decide +kernel, by decide +kernel, fun i b hb _ _ => ?_⟩
  have hmem := List.mem_of_getElem? hb
  simp only [List.mem_cons, List.not_mem_nil, or_false] at hmem
  rcases hmem with rfl | rfl
  · exact hlower
  · exact hupper

/-- A draw above the sum of the probabilities comes to a bin that is not there. -/
theorem half_fails : ∃ d, new parsedHalves half = .ok (.ok d) ∧
    d.sample binarySearch drawLowest (3 / 4) = .error .outOfBounds ∧ ¬ d.Safe := by
  have hnew : new parsedHalves half = .ok (.ok (ofSorted [lowerHalf])) := by decide +kernel
  have hfails : (ofSorted [lowerHalf]).sample binarySearch drawLowest (3 / 4) =
      .error .outOfBounds := by decide +kernel
  refine ⟨_, hnew, hfails, fun hsafe => ?_⟩
  obtain ⟨_, t, _, ht, _⟩ := hsafe binarySearch drawLowest binarySearch_searches drawLowest_draws
    (3 / 4) (by norm_num) (by norm_num)
  rw [hfails] at ht
  cases ht

end Maybenot.BinDist

import Maybenot.Proofs.Plain

namespace Maybenot
open Lib

variable {G : Type}

namespace WindowCount

/-- The window after all times of a list. -/
def addAll (w : WindowCount) (ts : List Instant) : WindowCount := ts.foldl (fun w t => (w.add t).2) w

/-- What is returned for the times of a list, one after the other. -/
def counts (w : WindowCount) : List Instant → List Nat
  | [] => []
  | t :: ts => (w.add t).1 :: (w.add t).2.counts ts

/-- The largest of some counts and of what was seen before. -/
def largest (seen : Nat) (counts : List Nat) : Nat :=
  counts.foldl (fun most m => if m > most then m else most) seen

theorem Counts.addAll {w : WindowCount} {ts us : List Instant} (h : w.Counts ts)
    (hsorted : (ts ++ us).Pairwise (· ≤ ·)) :
    (w.addAll us).Counts (ts ++ us) ∧ (w.addAll us).window = w.window := by
  induction us generalizing w ts with
  | nil => exact ⟨(List.append_nil ts).symm ▸ h, rfl⟩
  | cons u us ih =>
    obtain ⟨_, hcounts, hwindow⟩ := h.add fun x hx =>
      (List.pairwise_append.mp hsorted).2.2 x hx u List.mem_cons_self
    rw [List.append_cons] at hsorted ⊢
    obtain ⟨hall, hwidth⟩ := ih hcounts hsorted
    exact ⟨hall, hwidth.trans hwindow⟩

/-- A time is counted together with those before it that are within the window. -/
theorem add_count (window : Duration) {ts : List Instant} {t : Instant}
    (hsorted : (ts ++ [t]).Pairwise (· ≤ ·)) :
    (((WindowCount.new window).addAll ts).add t).1 =
      (ts ++ [t]).countP fun x => decide (t - (window : Int) ≤ x) := by
  have hlast : ∀ x ∈ ts, x ≤ t := fun x hx =>
    (List.pairwise_append.mp hsorted).2.2 x hx t (List.mem_singleton_self t)
  have hall : ∀ x ∈ ts ++ [t], x ≤ t := by
    intro x hx
    rcases List.mem_append.mp hx with hx | hx
    · exact hlast x hx
    · exact (List.mem_singleton.mp hx).le
  obtain ⟨hcounts, hwindow⟩ := (Counts.new window).addAll
    (by rw [List.nil_append]; exact hsorted.sublist (List.sublist_append_left ts [t]))
  rw [List.nil_append] at hcounts
  rw [(hcounts.add hlast).1, hwindow, List.countP_eq_length_filter]
  exact (recent_length hall).symm

/-- The most that a window ever counted is kept up over a whole list. -/
theorem Peak.addAll {w : WindowCount} {m : Nat} {ts us : List Instant} (h : w.Peak m ts)
    (hsorted : (ts ++ us).Pairwise (· ≤ ·)) :
    (w.addAll us).Peak (largest m (w.counts us)) (ts ++ us) := by
  induction us generalizing w m ts with
  | nil => exact (List.append_nil ts).symm ▸ h
  | cons u us ih =>
    have hpeak := h.add fun x hx =>
      (List.pairwise_append.mp hsorted).2.2 x hx u List.mem_cons_self
    rw [List.append_cons] at hsorted ⊢
    exact ih hpeak hsorted

/-- Where no window holds more than a limit, no more than it is counted. -/
theorem Counts.counts_le {w : WindowCount} {ts us : List Instant} {limit : Nat} (h : w.Counts ts)
    (hsorted : (ts ++ us).Pairwise (· ≤ ·))
    (hfew : Uncrowded (w.window : Int) limit ↑(ts ++ us)) : ∀ n ∈ w.counts us, n ≤ limit := by
  induction us generalizing w ts with
  | nil => exact fun n hn => absurd hn List.not_mem_nil
  | cons u us ih =>
    obtain ⟨hcount, hcounts, hwindow⟩ := h.add fun x hx =>
      (List.pairwise_append.mp hsorted).2.2 x hx u List.mem_cons_self
    rw [List.append_cons] at hsorted hfew
    intro n hn
    rcases List.mem_cons.mp hn with rfl | hn
    · rw [hcount]
      apply hfew.of_le
      exact Multiset.coe_le.mpr (List.sublist_append_left _ us).subperm
    · exact ih hcounts hsorted (hwindow ▸ hfew) n hn

/-- The most packets that the times of one direction have within a tenth of a second, as they
are counted when a trace is parsed. -/
def estimate (ts : List Instant) : Nat :=
  largest 0 ((WindowCount.new (Duration.fromMillis 100)).counts ts)

theorem addAll_concat (w : WindowCount) (ts : List Instant) (t : Instant) :
    w.addAll (ts ++ [t]) = ((w.addAll ts).add t).2 :=
  List.foldl_concat ..

theorem counts_concat (w : WindowCount) (ts : List Instant) (t : Instant) :
    w.counts (ts ++ [t]) = w.counts ts ++ [((w.addAll ts).add t).1] := by
  induction ts generalizing w with
  | nil => rfl
  | cons u us ih => exact congrArg (List.cons (w.add u).1) (ih (w.add u).2)

theorem mem_counts (w : WindowCount) (before after : List Instant) (t : Instant) :
    ((w.addAll before).add t).1 ∈ w.counts (before ++ t :: after) := by
  induction before generalizing w with
  | nil => exact List.mem_cons_self
  | cons u us ih => exact List.mem_cons_of_mem _ (ih (w.add u).2)

/-- One more time raises the estimate where it is counted with more than before. -/
theorem estimate_concat {w : WindowCount} {ts : List Instant}
    (hw : w = (WindowCount.new (Duration.fromMillis 100)).addAll ts) (t : Instant) :
    estimate (ts ++ [t]) =
      if (w.add t).1 > estimate ts then (w.add t).1 else estimate ts := by
  unfold estimate largest
  rw [counts_concat, List.foldl_concat, hw]

/-- Ten tenths of a second hold ten times as many packets at most, also when all are moved. -/
theorem estimate_few {ts : List Instant} (h : ts.Pairwise (· ≤ ·)) (d : Int) :
    Uncrowded ((Duration.fromMillis 1000 : Duration) : Int) (10 * estimate ts)
      ↑(ts.map (· + d)) := by
  have hall : ([] ++ ts).Pairwise (· ≤ ·) := h
  have hpeak := (Peak.new (Duration.fromMillis 100)).addAll hall
  have hwindow := ((Counts.new (Duration.fromMillis 100)).addAll hall).2
  have hcover := (hwindow ▸ hpeak.crowded).cover 9
  have hwidth : (9 + 1) • ((Duration.fromMillis 100 : Duration) : Int) =
      ((Duration.fromMillis 1000 : Duration) : Int) := by decide
  have hten := hwidth ▸ hcover
  rw [← Multiset.map_coe]
  exact hten.shift d

end WindowCount

namespace NetworkBottleneck

/-- The times of the packets that a side sends, of those of both sides. -/
def timesOf (c : Bool) (sent : List (Instant × Bool)) : List Instant :=
  (sent.filter (·.2 == c)).map (·.1)

theorem timesOf_cons (c : Bool) (p : Instant × Bool) (sent : List (Instant × Bool)) :
    timesOf c (p :: sent) = if c = p.2 then p.1 :: timesOf c sent else timesOf c sent := by
  unfold timesOf
  by_cases hc : c = p.2
  · rw [if_pos hc, List.filter_cons, if_pos (beq_iff_eq.mpr hc.symm)]
    rfl
  · rw [if_neg hc, List.filter_cons, if_neg fun hp => hc (beq_iff_eq.mp hp).symm]

theorem timesOf_append (c : Bool) (sent sent' : List (Instant × Bool)) :
    timesOf c (sent ++ sent') = timesOf c sent ++ timesOf c sent' := by
  unfold timesOf
  rw [List.filter_append, List.map_append]

/-- The bottleneck after packets of both sides. -/
def sampleAll (n : NetworkBottleneck) (sent : List (Instant × Bool)) : NetworkBottleneck :=
  sent.foldl (fun n p => (n.sample p.1 p.2).2) n

theorem setWindow_network (n : NetworkBottleneck) (c : Bool) (w : WindowCount) :
    (n.setWindow c w).network = n.network := by
  cases c <;> rfl

/-- Each side's packets go through the window of that side. -/
theorem sampleAll_window (n : NetworkBottleneck) (c : Bool) (sent : List (Instant × Bool)) :
    (n.sampleAll sent).window c = (n.window c).addAll (timesOf c sent) ∧
      (n.sampleAll sent).ppsLimit = n.ppsLimit ∧ (n.sampleAll sent).network = n.network := by
  induction sent generalizing n with
  | nil => exact ⟨rfl, rfl, rfl⟩
  | cons p sent ih =>
    obtain ⟨hwindow, hlimit, hnetwork⟩ := ih (n.sample p.1 p.2).2
    have hstep : (n.sample p.1 p.2).2 = n.setWindow p.2 ((n.window p.2).add p.1).2 := by
      rw [sample_eq]
    change ((n.sample p.1 p.2).2.sampleAll sent).window c = _ ∧
      ((n.sample p.1 p.2).2.sampleAll sent).ppsLimit = _ ∧
      ((n.sample p.1 p.2).2.sampleAll sent).network = _
    rw [hwindow, hlimit, hnetwork, hstep]
    refine ⟨?_, (setWindow_rest n _ _).2.2, setWindow_network n _ _⟩
    rw [window_setWindow, timesOf_cons]
    by_cases hc : c = p.2
    · rw [if_pos hc, if_pos hc, hc]
      rfl
    · rw [if_neg hc, if_neg hc]

/-- A packet that is counted within the limit is delayed by the network only. -/
theorem sample_free {n : NetworkBottleneck} {t : Instant} {c : Bool}
    (h : ((n.window c).add t).1 ≤ n.ppsLimit) : (n.sample t c).1 = (n.network.sample, none) := by
  have hnone : n.surcharge ((n.window c).add t).1 = 0 := if_neg (Nat.not_lt.mpr h)
  rw [sample_eq, hnone]
  exact Prod.ext (Nat.zero_add _) rfl

end NetworkBottleneck

namespace Parsed

/-- When a line says that a packet was sent, or received. -/
def packetAt (startingTime : Instant) (sent : Bool) (l : List Char) : Option Instant :=
  match l.splitOn ',' with
  | time :: direction :: _ =>
    if direction ∈ Row.directions sent then
      (parseU64 (trim time)).map fun nanos : Nat => startingTime + (nanos : Int)
    else none
  | _ => none

/-- The times of one direction in the lines of a trace. -/
def packetTimes (startingTime : Instant) (sent : Bool) (ls : List (List Char)) : List Instant :=
  ls.filterMap (packetAt startingTime sent)

/-- What has been counted in the lines that were read. -/
structure Counted (startingTime : Instant) (ls : List (List Char)) (p : Parsed G) : Prop where
  sentWindow : p.sentWindow =
    (WindowCount.new (Duration.fromMillis 100)).addAll (packetTimes startingTime true ls)
  recvWindow : p.recvWindow =
    (WindowCount.new (Duration.fromMillis 100)).addAll (packetTimes startingTime false ls)
  sentMaxPps : p.sentMaxPps = WindowCount.estimate (packetTimes startingTime true ls)
  recvMaxPps : p.recvMaxPps = WindowCount.estimate (packetTimes startingTime false ls)

end Parsed

namespace Parsed.Counted

variable {network : Network} {client server : Option (Integration G)} {startingTime : Instant}
  {ls : List (List Char)} {l : List Char} {p p' : Parsed G}

theorem packetTimes_concat (startingTime : Instant) (sent : Bool) (ls : List (List Char))
    (l : List Char) : packetTimes startingTime sent (ls ++ [l]) =
      packetTimes startingTime sent ls ++ (packetAt startingTime sent l).toList := by
  unfold packetTimes
  rw [List.filterMap_append, List.filterMap_cons]
  cases packetAt startingTime sent l <;> rfl

theorem packetTimes_none {sent : Bool} (h : packetAt startingTime sent l = none) :
    packetTimes startingTime sent (ls ++ [l]) = packetTimes startingTime sent ls := by
  rw [packetTimes_concat, h]
  exact List.append_nil _

theorem packetTimes_some {sent : Bool} {t : Instant} (h : packetAt startingTime sent l = some t) :
    packetTimes startingTime sent (ls ++ [l]) = packetTimes startingTime sent ls ++ [t] := by
  rw [packetTimes_concat, h]
  rfl

/-- A packet is counted in the window of its direction, and in that only. -/
theorem sent (h : p.Counted startingTime ls) {t : Instant}
    (hsent : packetAt startingTime true l = some t) (hrecv : packetAt startingTime false l = none) :
    (p.sent client t).Counted startingTime (ls ++ [l]) := by
  constructor
  · rw [packetTimes_some hsent, WindowCount.addAll_concat, ← h.sentWindow]
    rfl
  · rw [packetTimes_none hrecv]
    exact h.recvWindow
  · rw [packetTimes_some hsent, WindowCount.estimate_concat h.sentWindow, ← h.sentMaxPps]
    rfl
  · rw [packetTimes_none hrecv]
    exact h.recvMaxPps

theorem received (h : p.Counted startingTime ls) {t : Instant}
    (hsent : packetAt startingTime true l = none) (hrecv : packetAt startingTime false l = some t) :
    (p.received network server t).Counted startingTime (ls ++ [l]) := by
  constructor
  · rw [packetTimes_none hsent]
    exact h.sentWindow
  · rw [packetTimes_some hrecv, WindowCount.addAll_concat, ← h.recvWindow]
    rfl
  · rw [packetTimes_none hsent]
    exact h.sentMaxPps
  · rw [packetTimes_some hrecv, WindowCount.estimate_concat h.recvWindow, ← h.recvMaxPps]
    rfl

theorem skip (h : p.Counted startingTime ls)
    (hnone : ∀ sent, packetAt startingTime sent l = none) : p.Counted startingTime (ls ++ [l]) := by
  constructor
  · rw [packetTimes_none (hnone true)]
    exact h.sentWindow
  · rw [packetTimes_none (hnone false)]
    exact h.recvWindow
  · rw [packetTimes_none (hnone true)]
    exact h.sentMaxPps
  · rw [packetTimes_none (hnone false)]
    exact h.recvMaxPps

/-- A line that is read is counted if it is a packet's. -/
theorem line (h : p.Counted startingTime ls)
    (hline : Parsed.line network client server startingTime p l = .ok p') :
    p'.Counted startingTime (ls ++ [l]) := by
  unfold Parsed.line at hline
  split at hline
  · next time direction rest hl =>
    obtain ⟨nanos, htime, hline⟩ := bind_ok.mp hline
    have htime := unwrap_ok.mp htime
    have hat (sent : Bool) : packetAt startingTime sent l =
        if direction ∈ Row.directions sent then some (startingTime + (nanos : Int)) else none := by
      unfold packetAt
      rw [hl]
      simp only [htime, Option.map_some]
    have hsent : direction ∈ Row.directions true ↔ direction = ['s'] ∨ direction = ['s', 'n'] :=
      List.mem_pair
    have hrecv : direction ∈ Row.directions false ↔ direction = ['r'] ∨ direction = ['r', 'n'] :=
      List.mem_pair
    split at hline
    · next hs =>
      obtain rfl := pure_ok.mp hline
      apply h.sent
      · rw [hat, if_pos (hsent.mpr hs)]
      · rw [hat, if_neg]
        rcases hs with rfl | rfl <;> decide
    · next hs =>
      split at hline
      · next hr =>
        obtain rfl := pure_ok.mp hline
        apply h.received
        · rw [hat, if_neg fun hmem => hs (hsent.mp hmem)]
        · rw [hat, if_pos (hrecv.mpr hr)]
      · next hr =>
        split at hline
        · obtain rfl := pure_ok.mp hline
          apply h.skip
          intro sent
          rw [hat, if_neg]
          intro hmem
          cases sent with
          | true => exact hs (hsent.mp hmem)
          | false => exact hr (hrecv.mp hmem)
        · cases hline
  · next hl =>
    obtain rfl := pure_ok.mp hline
    apply h.skip
    intro sent
    unfold packetAt
    split
    · next time direction rest hsplit => exact absurd hsplit (hl time direction rest)
    · rfl

theorem fold {more : List (List Char)} (h : p.Counted startingTime ls)
    (hfold : more.foldlM (Parsed.line network client server startingTime) p = .ok p') :
    p'.Counted startingTime (ls ++ more) := by
  induction more generalizing p ls with
  | nil =>
    obtain rfl := pure_ok.mp hfold
    exact (List.append_nil ls).symm ▸ h
  | cons l more ih =>
    rw [List.foldlM_cons] at hfold
    obtain ⟨q, hq, hfold⟩ := bind_ok.mp hfold
    rw [List.append_cons]
    exact ih (h.line hq) hfold

end Parsed.Counted

/-- The limit of a trace is ten times the larger of the estimates for its directions. -/
theorem parseTraceAdvanced_limit {trace : List Char} {network : Network}
    {client server : Option (Integration G)} {startingTime : Instant} {rng : G} {sq : SimQueue}
    (h : parseTraceAdvanced trace network client server startingTime rng = .ok sq) :
    sq.maxPps = some (max
      (WindowCount.estimate (Parsed.packetTimes startingTime true (lines trace)))
      (WindowCount.estimate (Parsed.packetTimes startingTime false (lines trace))) * 10) := by
  obtain ⟨p, hfold, hsq⟩ := bind_ok.mp h
  obtain rfl := pure_ok.mp hsq
  have hstart : (⟨.new, .new (Duration.fromMillis 100), .new (Duration.fromMillis 100), 0, 0,
      rng⟩ : Parsed G).Counted startingTime [] := ⟨rfl, rfl, rfl, rfl⟩
  have hcounted := hstart.fold hfold
  rw [List.nil_append] at hcounted
  change some (max p.sentMaxPps p.recvMaxPps * 10) = _
  rw [hcounted.sentMaxPps, hcounted.recvMaxPps]

/-- The limit that is estimated from a trace never throttles it. -/
theorem estimate_never_throttles (ts : List Instant) (h : ts.Pairwise (· ≤ ·)) (d : Int) :
    (∀ n ∈ (WindowCount.new (Duration.fromMillis 1000)).counts (ts.map (· + d)),
      n ≤ 10 * WindowCount.estimate ts) ∧
    (∀ (n : NetworkBottleneck) (c : Bool) (sent after : List (Instant × Bool)) (t : Instant),
      n.window c = .new (Duration.fromMillis 1000) → 10 * WindowCount.estimate ts ≤ n.ppsLimit →
      NetworkBottleneck.timesOf c (sent ++ (t, c) :: after) = ts.map (· + d) →
      ((n.sampleAll sent).sample t c).1 = (n.network.sample, none)) ∧
    (∀ (window : Duration) (before after : List Instant) (t : Instant),
      ts = before ++ t :: after →
      (((WindowCount.new window).addAll before).add t).1 =
        (before ++ [t]).countP fun x => decide (t - (window : Int) ≤ x)) ∧
    ∀ (trace : List Char) (network : Network) (client server : Option (Integration G))
      (startingTime : Instant) (rng : G) (sq : SimQueue),
      parseTraceAdvanced trace network client server startingTime rng = .ok sq →
      sq.maxPps = some (max
        (WindowCount.estimate (Parsed.packetTimes startingTime true (lines trace)))
        (WindowCount.estimate (Parsed.packetTimes startingTime false (lines trace))) * 10) := by
  have hshift : (ts.map (· + d)).Pairwise (· ≤ ·) := by
    rw [List.pairwise_map]
    apply h.imp
    intro t t' hle
    lia
  have hfew : ∀ n ∈ (WindowCount.new (Duration.fromMillis 1000)).counts (ts.map (· + d)),
      n ≤ 10 * WindowCount.estimate ts :=
    (WindowCount.Counts.new _).counts_le hshift (WindowCount.estimate_few h d)
  refine ⟨hfew, ?_, ?_, ?_⟩
  · intro n c sent after t hnew hlimit htimes
    obtain ⟨hwindow, hpps, hnetwork⟩ := n.sampleAll_window c sent
    have hsplit : NetworkBottleneck.timesOf c (sent ++ (t, c) :: after) =
        NetworkBottleneck.timesOf c sent ++ t :: NetworkBottleneck.timesOf c after := by
      rw [NetworkBottleneck.timesOf_append, NetworkBottleneck.timesOf_cons, if_pos rfl]
    have hmem := WindowCount.mem_counts (.new (Duration.fromMillis 1000))
      (NetworkBottleneck.timesOf c sent) (NetworkBottleneck.timesOf c after) t
    rw [← hsplit, htimes] at hmem
    rw [NetworkBottleneck.sample_free, hnetwork]
    rw [hwindow, hpps, hnew]
    exact (hfew _ hmem).trans hlimit
  · intro window before after t hts
    have hpart : (before ++ [t]).Sublist ts := by
      rw [hts, List.append_cons before t after]
      exact List.sublist_append_left ..
    exact WindowCount.add_count window (h.sublist hpart)
  · intro trace network client server startingTime rng sq
    exact parseTraceAdvanced_limit

/-- Three packets within a tenth of a second, and one after it. -/
theorem four_packets_estimate :
    (WindowCount.new (Duration.fromMillis 1000)).counts
      ([0, 50000000, 100000000, 900000000].map (· + (7 : Int))) = [1, 2, 3, 4] ∧
    WindowCount.estimate [0, 50000000, 100000000, 900000000] = 3 ∧
    ∀ n ∈ (WindowCount.new (Duration.fromMillis 1000)).counts
      ([0, 50000000, 100000000, 900000000].map (· + (7 : Int))), n ≤ 10 * 3 := by
  have hthree : WindowCount.estimate [0, 50000000, 100000000, 900000000] = 3 := by decide +kernel
  refine ⟨by decide +kernel, hthree, ?_⟩
  have hnever := (estimate_never_throttles (G := Unit) [0, 50000000, 100000000, 900000000]
    (by decide) 7).1
  rw [hthree] at hnever
  exact hnever

end Maybenot

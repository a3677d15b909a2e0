import Maybenot.Lib.Window
import Maybenot.Proofs.Conserved

namespace Maybenot
open Lib

namespace WindowCount

/-- What a window still has of the times that it was given, in order. -/
structure Counts (w : WindowCount) (ts : List Instant) : Prop where
  part : w.timestamps.Sublist ts
  sorted : ts.Pairwise (· ≤ ·)
  kept : ∀ now, (∀ t ∈ ts, t ≤ now) →
    recent (w.window : Int) now w.timestamps = recent (w.window : Int) now ts

theorem Counts.new (window : Duration) : (WindowCount.new window).Counts [] where
  part := .slnil
  sorted := .nil
  kept _ _ := rfl

theorem pairwise_concat {ts : List Instant} {t : Instant} (h : ts.Pairwise (· ≤ ·))
    (hlast : ∀ x ∈ ts, x ≤ t) : (ts ++ [t]).Pairwise (· ≤ ·) := by
  rw [List.pairwise_append]
  refine ⟨h, List.pairwise_singleton _ _, ?_⟩
  intro x hx y hy
  rw [List.mem_singleton.mp hy]
  exact hlast x hx

/-- Adding a time forgets what is no longer recent. -/
theorem add_recent {w : WindowCount} {t : Instant} (h : w.timestamps.Pairwise (· ≤ ·))
    (hlast : ∀ x ∈ w.timestamps, x ≤ t) :
    w.add t = ((recent (w.window : Int) t (w.timestamps ++ [t])).length,
      { w with timestamps := recent (w.window : Int) t (w.timestamps ++ [t]) }) := by
  have hold : (fun oldest => decide (Instant.durationSince t oldest > w.window)) =
      fun oldest => decide (oldest < t - (w.window : Int)) := by
    funext oldest
    rw [decide_eq_decide]
    unfold Instant.durationSince
    lia
  unfold add
  rw [hold, dropWhile_recent (w.window : Int) t (pairwise_concat h hlast)]

/-- A window counts the times of the last while. -/
theorem Counts.add {w : WindowCount} {ts : List Instant} {t : Instant} (h : w.Counts ts)
    (hlast : ∀ x ∈ ts, x ≤ t) :
    (w.add t).1 = crowd (w.window : Int) ↑(ts ++ [t]) (t - (w.window : Int)) ∧
      (w.add t).2.Counts (ts ++ [t]) ∧ (w.add t).2.window = w.window := by
  have hall : ∀ x ∈ ts ++ [t], x ≤ t := by
    intro x hx
    rcases List.mem_append.mp hx with hx | hx
    · exact hlast x hx
    · exact (List.mem_singleton.mp hx).le
  have hsame (now : Instant) (hnow : ∀ x ∈ ts ++ [t], x ≤ now) :
      recent (w.window : Int) now (w.timestamps ++ [t]) =
        recent (w.window : Int) now (ts ++ [t]) := by
    rw [recent_append, recent_append, h.kept now fun x hx => hnow x (List.mem_append_left _ hx)]
  have hadd := add_recent (h.sorted.sublist h.part) fun x hx => hlast x (h.part.subset hx)
  rw [hadd]
  refine ⟨?_, ?_, rfl⟩
  · rw [hsame t hall]
    exact recent_length hall
  · constructor
    · exact List.filter_sublist.trans (h.part.append_right [t])
    · exact pairwise_concat h.sorted hlast
    · intro now hnow
      have ht : t ≤ now := hnow t (List.mem_append_right _ (List.mem_singleton_self t))
      change recent _ now (recent _ t _) = _
      rw [recent_recent _ ht, hsame now hnow]

/-- A window together with the most that it ever counted. -/
structure Peak (w : WindowCount) (m : Nat) (ts : List Instant) : Prop where
  counts : w.Counts ts
  crowded : Uncrowded (w.window : Int) m ↑ts
  reached : m ≤ ts.length

theorem Peak.new (window : Duration) : (WindowCount.new window).Peak 0 [] :=
  ⟨.new window, .zero _ _, Nat.le_refl 0⟩

theorem Peak.add {w : WindowCount} {m : Nat} {ts : List Instant} {t : Instant}
    (h : w.Peak m ts) (hlast : ∀ x ∈ ts, x ≤ t) :
    (w.add t).2.Peak (if (w.add t).1 > m then (w.add t).1 else m) (ts ++ [t]) := by
  obtain ⟨hcount, hcounts, hwindow⟩ := h.counts.add hlast
  have hcons : ((ts ++ [t] : List Instant) : Multiset Instant) = t ::ₘ ↑ts :=
    Multiset.coe_eq_coe.mpr (List.perm_append_singleton t ts)
  have hm : m ≤ (if (w.add t).1 > m then (w.add t).1 else m) ∧
      (w.add t).1 ≤ (if (w.add t).1 > m then (w.add t).1 else m) := by
    split <;> omega
  refine ⟨hcounts, ?_, ?_⟩
  · rw [hwindow, hcons]
    apply (h.crowded.mono hm.1).cons hlast
    rw [← hcons, ← hcount]
    exact hm.2
  · have hlen : (w.add t).1 ≤ (ts ++ [t]).length := by
      rw [hcount]
      exact (Multiset.countP_le_card _ _).trans_eq (Multiset.coe_card _)
    have hreached := h.reached
    rw [List.length_append, List.length_singleton] at hlen ⊢
    split <;> omega

end WindowCount

/-- A line of a trace: a packet that the client sent or received so many nanoseconds in. -/
structure Row where
  time : Nat
  sent : Bool
deriving DecidableEq

namespace Row

/-- The number that some digits stand for, after those of `acc`. -/
def value (acc : Nat) (digits : List Char) : Nat :=
  digits.foldl (fun n c => 10 * n + (c.toNat - '0'.toNat)) acc

/-- How a line writes the direction of a packet. -/
def directions (sent : Bool) : List (List Char) :=
  if sent then [['s'], ['s', 'n']] else [['r'], ['r', 'n']]

/-- The line says what the row does. -/
def Written (r : Row) (l : List Char) : Prop :=
  ∃ digits direction, l = digits ++ ',' :: direction ∧ digits ≠ [] ∧
    (∀ c ∈ digits, c.isDigit = true) ∧ value 0 digits = r.time ∧ direction ∈ directions r.sent

theorem value_ge (acc : Nat) (digits : List Char) : acc ≤ value acc digits := by
  induction digits generalizing acc with
  | nil => exact Nat.le_refl acc
  | cons c digits ih =>
    have hstep := ih (10 * acc + (c.toNat - '0'.toNat))
    change acc ≤ value (10 * acc + (c.toNat - '0'.toNat)) digits
    omega

theorem parseDigits_value {acc : Nat} {digits : List Char}
    (hdigits : ∀ c ∈ digits, c.isDigit = true) (hle : value acc digits ≤ u64Max) :
    parseDigits acc digits = some (value acc digits) := by
  induction digits generalizing acc with
  | nil => rfl
  | cons c digits ih =>
    have hc : digit c = some (c.toNat - '0'.toNat) :=
      if_pos (hdigits c List.mem_cons_self)
    have hstep : 10 * acc + (c.toNat - '0'.toNat) ≤ u64Max :=
      (value_ge _ digits).trans hle
    unfold parseDigits
    rw [hc]
    change (if 10 * acc + (c.toNat - '0'.toNat) ≤ u64Max then _ else _) = _
    rw [if_pos hstep]
    exact ih (fun x hx => hdigits x (List.mem_cons_of_mem _ hx)) hle

theorem isDigit_val {c : Char} (h : c.isDigit = true) : 48 ≤ c.val ∧ c.val ≤ 57 := by
  simpa [Char.isDigit] using h

theorem isWhiteSpace_digit {c : Char} (h : c.isDigit = true) : isWhiteSpace c = false := by
  obtain ⟨hlow, hhigh⟩ := isDigit_val h
  unfold isWhiteSpace
  have hlow' : 48 ≤ c.val.toNat := UInt32.le_iff_toNat_le.mp hlow
  have hhigh' : c.val.toNat ≤ 57 := UInt32.le_iff_toNat_le.mp hhigh
  simp only [UInt32.le_iff_toNat_le, Bool.or_eq_false_iff, Bool.and_eq_false_iff,
    decide_eq_false_iff_not, beq_eq_false_iff_ne, ne_eq, ← UInt32.toNat_inj]
  simp only [UInt32.reduceToNat]
  omega

theorem dropWhile_digits {digits : List Char} (h : ∀ c ∈ digits, c.isDigit = true) :
    digits.dropWhile isWhiteSpace = digits := by
  cases digits with
  | nil => rfl
  | cons c digits =>
    rw [List.dropWhile_cons, isWhiteSpace_digit (h c List.mem_cons_self)]
    rfl

theorem trim_digits {digits : List Char} (h : ∀ c ∈ digits, c.isDigit = true) :
    trim digits = digits := by
  have hreverse : ∀ c ∈ digits.reverse, c.isDigit = true :=
    fun c hc => h c (List.mem_reverse.mp hc)
  unfold trim
  rw [dropWhile_digits h, dropWhile_digits hreverse, List.reverse_reverse]

theorem parseU64_digits {digits : List Char} (hne : digits ≠ [])
    (hdigits : ∀ c ∈ digits, c.isDigit = true) (hle : value 0 digits ≤ u64Max) :
    parseU64 (trim digits) = some (value 0 digits) := by
  rw [trim_digits hdigits]
  unfold parseU64
  split
  · exact absurd rfl hne
  · exact absurd (hdigits '+' List.mem_cons_self) (by decide)
  · exact absurd (hdigits '+' List.mem_cons_self) (by decide)
  · exact parseDigits_value hdigits hle

/-- A line that is written for a row splits into the two things that it says. -/
theorem split_written {digits direction : List Char} (hdigits : ∀ c ∈ digits, c.isDigit = true)
    {sent : Bool} (hdirection : direction ∈ directions sent) :
    (digits ++ ',' :: direction).splitOn ',' = [digits, direction] := by
  have hcomma : ',' ∉ digits := fun h => absurd (hdigits ',' h) (by decide)
  have hrest : ',' ∉ direction := by
    cases sent with
    | true =>
      rcases List.mem_pair.mp hdirection with rfl | rfl <;> decide
    | false =>
      rcases List.mem_pair.mp hdirection with rfl | rfl <;> decide
  rw [List.splitOn_append_cons_self, List.splitOn_eq_singleton hcomma,
    List.splitOn_eq_singleton hrest]
  rfl

/-- When the packet of the row is sent or received. -/
def instant (startingTime : Instant) (r : Row) : Instant := startingTime + r.time

/-- The packet as it is queued: the server sends what the client receives the network delay
before. -/
def packet (delay : Duration) (startingTime : Instant) (r : Row) : SimEvent where
  event := .normalSent
  time := if r.sent then r.instant startingTime else r.instant startingTime - delay
  integrationDelay := 0
  client := r.sent
  containsPadding := false
  bypass := false
  replace := false

/-- When the packets of one direction are sent or received, in the order of the rows. -/
def instants (startingTime : Instant) (sent : Bool) (rows : List Row) : List Instant :=
  (rows.filter (·.sent == sent)).map (·.instant startingTime)

theorem instants_concat (startingTime : Instant) (sent : Bool) (rows : List Row) (r : Row) :
    instants startingTime sent (rows ++ [r]) = instants startingTime sent rows ++
      if r.sent = sent then [r.instant startingTime] else [] := by
  unfold instants
  rw [List.filter_append, List.map_append, List.filter_singleton]
  by_cases hr : r.sent = sent
  · rw [if_pos hr, beq_iff_eq.mpr hr]
    rfl
  · rw [if_neg hr, beq_eq_false_iff_ne.mpr hr]
    rfl

/-- What is read from a line that is written for a row. -/
theorem line_written {G : Type} {network : Network} {startingTime : Instant} {p : Parsed G}
    {r : Row} {l : List Char} (h : r.Written l) (hle : r.time ≤ u64Max) :
    Parsed.line network none none startingTime p l =
      .ok (if r.sent then p.sent none (r.instant startingTime)
        else p.received network none (r.instant startingTime)) := by
  obtain ⟨digits, direction, rfl, hne, hdigits, hvalue, hdirection⟩ := h
  have hnumber : parseU64 (trim digits) = some r.time :=
    hvalue ▸ parseU64_digits hne hdigits (hvalue.trans_le hle)
  unfold Parsed.line
  rw [split_written hdigits hdirection]
  dsimp only
  rw [hnumber]
  change (if direction = ['s'] ∨ direction = ['s', 'n'] then _ else _) = _
  cases hr : r.sent with
  | true =>
    rw [hr] at hdirection
    rw [if_pos (List.mem_pair.mp hdirection)]
    rfl
  | false =>
    rw [hr] at hdirection
    have hrecv : direction = ['r'] ∨ direction = ['r', 'n'] := List.mem_pair.mp hdirection
    have hsend : ¬ (direction = ['s'] ∨ direction = ['s', 'n']) := by
      rcases hrecv with rfl | rfl <;> decide
    rw [if_neg hsend, if_pos hrecv]
    rfl

end Row

/-- What has been built up after some rows. -/
structure Parsed.Reads {G : Type} (delay : Duration) (startingTime : Instant) (rows : List Row)
    (p : Parsed G) : Prop where
  base : p.sq.BaseTrace
  items : p.sq.items = ↑(rows.map (Row.packet delay startingTime))
  sent : p.sentWindow.Peak p.sentMaxPps (Row.instants startingTime true rows)
  recv : p.recvWindow.Peak p.recvMaxPps (Row.instants startingTime false rows)
  windows : p.sentWindow.window = Duration.fromMillis 100 ∧
    p.recvWindow.window = Duration.fromMillis 100

namespace Parsed.Reads

variable {G : Type} {delay : Duration} {startingTime : Instant} {rows : List Row}

theorem before_instant {rows : List Row} {r : Row} (hlast : ∀ x ∈ rows, x.time ≤ r.time)
    (sent : Bool) : ∀ t ∈ Row.instants startingTime sent rows, t ≤ r.instant startingTime := by
  intro t ht
  obtain ⟨x, hx, rfl⟩ := List.mem_map.mp ht
  have hle := hlast x (List.mem_filter.mp hx).1
  unfold Row.instant
  lia

/-- A line adds its packet, and its time to the window of its direction. -/
theorem add {p : Parsed G} {network : Network} (h : p.Reads network.delay startingTime rows)
    {r : Row} (hlast : ∀ x ∈ rows, x.time ≤ r.time) :
    (if r.sent then p.sent none (r.instant startingTime)
      else p.received network none (r.instant startingTime)).Reads network.delay startingTime
        (rows ++ [r]) := by
  have hitems {sq : SimQueue} (e : SimEvent) (hsq : sq.items = p.sq.items)
      (he : e = r.packet network.delay startingTime) :
      (sq.pushSim e).items = ↑((rows ++ [r]).map (Row.packet network.delay startingTime)) := by
    rw [SimQueue.items_pushSim, hsq, h.items, he, List.map_append]
    exact (Multiset.coe_eq_coe.mpr (List.perm_append_singleton _ _)).symm
  have hsame {sent : Bool} (hr : r.sent ≠ sent) :
      Row.instants startingTime sent (rows ++ [r]) = Row.instants startingTime sent rows := by
    rw [Row.instants_concat, if_neg hr, List.append_nil]
  have hmore {sent : Bool} (hr : r.sent = sent) : Row.instants startingTime sent (rows ++ [r]) =
      Row.instants startingTime sent rows ++ [r.instant startingTime] := by
    rw [Row.instants_concat, if_pos hr]
  cases hr : r.sent with
  | true =>
    rw [if_pos rfl]
    have hbase := SimQueue.BaseTrace.push h.base true false
      (r.instant startingTime + (0 : Duration)) 0
    refine ⟨hbase, ?_, ?_, ?_, h.windows⟩
    · apply hitems _ rfl
      simp [Row.packet, hr]
    · exact hmore hr ▸ h.sent.add (before_instant hlast true)
    · rw [hsame (by simp [hr])]
      exact h.recv
  | false =>
    rw [if_neg Bool.false_ne_true]
    have hbase := SimQueue.BaseTrace.push h.base false false
      (r.instant startingTime - network.delay + (0 : Duration)) 0
    refine ⟨hbase, ?_, ?_, ?_, h.windows⟩
    · apply hitems _ rfl
      simp [Row.packet, hr]
    · rw [hsame (by simp [hr])]
      exact h.sent
    · exact hmore hr ▸ h.recv.add (before_instant hlast false)

/-- A trace whose lines are written for rows in order is read. -/
theorem fold {network : Network} {ls : List (List Char)} {more : List Row}
    (hwritten : List.Forall₂ Row.Written more ls) {p : Parsed G}
    (h : p.Reads network.delay startingTime rows)
    (hsorted : (rows ++ more).Pairwise (·.time ≤ ·.time)) (hle : ∀ r ∈ more, r.time ≤ u64Max) :
    ∃ p', ls.foldlM (Parsed.line network none none startingTime) p = .ok p' ∧
      p'.Reads network.delay startingTime (rows ++ more) := by
  induction hwritten generalizing rows p with
  | nil => exact ⟨p, rfl, (List.append_nil rows).symm ▸ h⟩
  | @cons r l more ls hr _ ih =>
    have hlast : ∀ x ∈ rows, x.time ≤ r.time :=
      fun x hx => (List.pairwise_append.mp hsorted).2.2 x hx r List.mem_cons_self
    have happend : rows ++ r :: more = rows ++ [r] ++ more :=
      (List.append_cons rows r more)
    rw [happend] at hsorted ⊢
    obtain ⟨p', hp', hreads⟩ := ih (h.add hlast) hsorted
      fun x hx => hle x (List.mem_cons_of_mem _ hx)
    refine ⟨p', ?_, hreads⟩
    rw [List.foldlM_cons, Row.line_written hr (hle r List.mem_cons_self)]
    exact hp'

end Parsed.Reads

/-- The queue of a trace has the packets of its rows, and a limit ten times the most packets
that one direction has within a tenth of a second. -/
theorem parseTrace_rows {text : List Char} {rows : List Row} {network : Network}
    {startingTime : Instant} (hwritten : List.Forall₂ Row.Written rows (lines text))
    (hsorted : rows.Pairwise (·.time ≤ ·.time)) (hle : ∀ r ∈ rows, r.time ≤ u64Max) :
    ∃ sq m, parseTrace text network startingTime = .ok sq ∧ sq.BaseTrace ∧
      sq.items = ↑(rows.map (Row.packet network.delay startingTime)) ∧
      sq.maxPps = some (m * 10) ∧ m ≤ rows.length ∧
      ∀ sent, Uncrowded ((Duration.fromMillis 100 : Duration) : Int) m
        ↑(Row.instants startingTime sent rows) := by
  have hlength (sent : Bool) : (Row.instants startingTime sent rows).length ≤ rows.length := by
    unfold Row.instants
    rw [List.length_map]
    exact List.length_filter_le ..
  have hstart : (⟨.new, .new (Duration.fromMillis 100), .new (Duration.fromMillis 100), 0, 0, ()⟩ :
      Parsed Unit).Reads network.delay startingTime [] :=
    ⟨.new, rfl, .new _, .new _, rfl, rfl⟩
  obtain ⟨p, hp, hreads⟩ := Parsed.Reads.fold hwritten hstart (by simpa using hsorted) hle
  rw [List.nil_append] at hreads
  refine ⟨{ p.sq with maxPps := some (max p.sentMaxPps p.recvMaxPps * 10) },
    max p.sentMaxPps p.recvMaxPps, ?_, ?_, hreads.items, rfl, ?_, ?_⟩
  · unfold parseTrace parseTraceAdvanced
    rw [bind_eq hp]
    rfl
  · exact ⟨hreads.base.built.limit _,
      fun c k e he => hreads.base.normal c k e (by cases c <;> exact he)⟩
  · exact max_le (hreads.sent.reached.trans (hlength true))
      (hreads.recv.reached.trans (hlength false))
  · intro sent
    cases sent with
    | true => exact (hreads.windows.1 ▸ hreads.sent.crowded).mono (le_max_left _ _)
    | false => exact (hreads.windows.2 ▸ hreads.recv.crowded).mono (le_max_right _ _)

end Maybenot

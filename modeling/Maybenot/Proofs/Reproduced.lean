import Mathlib.Data.List.Sort
import Maybenot.Proofs.Ranged

namespace Maybenot
open Lib

variable {R G : Type}

/-- When the events of one kind happen on one side, in the order of a trace. -/
def times (event : TriggerEvent) (client : Bool) (trace : List SimEvent) : List Instant :=
  (trace.filter fun e => e.event = event ∧ e.client = client).map (·.time)

/-- A trace that is sorted by time has its times in order. -/
theorem times_sorted {event : TriggerEvent} {client : Bool} {trace : List SimEvent}
    {ts : List Instant} (hts : ts.Pairwise (· ≤ ·))
    (h : (times event client trace : Multiset Instant) = ts) :
    times event client (trace.mergeSort fun a b => decide (a.time ≤ b.time)) = ts := by
  let le (a b : SimEvent) : Bool := decide (a.time ≤ b.time)
  have htrans : ∀ a b c : SimEvent, le a b = true → le b c = true → le a c = true := by
    intro a b c hab hbc
    exact decide_eq_true ((of_decide_eq_true hab).trans (of_decide_eq_true hbc))
  have htotal : ∀ a b : SimEvent, (le a b || le b a) = true := by
    intro a b
    rw [Bool.or_eq_true]
    rcases le_total a.time b.time with hab | hba
    · exact .inl (decide_eq_true hab)
    · exact .inr (decide_eq_true hba)
  have hsorted : (trace.mergeSort le).Pairwise fun a b => a.time ≤ b.time :=
    (List.pairwise_mergeSort htrans htotal trace).imp of_decide_eq_true
  have hperm : (times event client (trace.mergeSort le)).Perm ts := by
    apply List.Perm.trans _ (Multiset.coe_eq_coe.mp h)
    exact ((List.mergeSort_perm trace le).filter _).map _
  have htimes : (times event client (trace.mergeSort le)).Pairwise (· ≤ ·) :=
    List.pairwise_map.mpr (hsorted.sublist List.filter_sublist)
  exact hperm.eq_of_pairwise' htimes hts

namespace Config
open Sim

theorem adjusted_same (e : SimEvent) : e.adjusted.event = e.event ∧
    e.adjusted.client = e.client ∧ e.adjusted.containsPadding = e.containsPadding := by
  unfold SimEvent.adjusted
  split
  · exact ⟨rfl, rfl, rfl⟩
  · exact ⟨rfl, rfl, rfl⟩
  · exact ⟨rfl, rfl, rfl⟩
  · exact ⟨rfl, rfl, rfl⟩
  · exact ⟨rfl, rfl, rfl⟩
  · split <;> exact ⟨rfl, rfl, rfl⟩
  · exact ⟨rfl, rfl, rfl⟩

/-- What a recorded trace has of the packets. -/
theorem times_recorded {args : SimulatorArgs G} (hall : args.onlyClientEvents = false)
    {event : TriggerEvent} (hevent : event = .tunnelSent ∨ event = .tunnelRecv) (c : Bool)
    (log : List SimEvent) :
    times event c ((log.filter (Recorded args)).map (·.adjusted)) =
      ((log.filter (·.event = event)).filter (·.client = c)).map (·.adjusted.time) := by
  unfold times
  rw [List.filter_map, List.map_map, List.filter_filter, List.filter_filter]
  congr 1
  apply List.filter_congr
  intro e _
  obtain ⟨hev, hcl, _⟩ := adjusted_same e
  have hrecorded (he : e.event = event) : Recorded args e = true := by
    unfold Recorded
    rw [hall, he]
    rcases hevent with rfl | rfl <;> simp
  rw [Function.comp_apply, hev, hcl, Bool.eq_iff_iff]
  simp only [Bool.and_eq_true, decide_eq_true_eq]
  constructor
  · rintro ⟨⟨he, hc⟩, _⟩
    exact ⟨hc, he⟩
  · rintro ⟨hc, he⟩
    exact ⟨⟨he, hc⟩, hrecorded he⟩

variable {limit : Nat} {packets : Bool → Multiset Instant}

/-- At the end of a run without machines every packet has arrived. -/
theorem Plain.arrived {args : SimulatorArgs G} {w : Sim R G} {l : List Crossing}
    (hcross : Crosses args (.done w) l) (hover : ∀ e ∈ w.sq.items, e.event = .normalRecv) :
    (l.map (·.received) : Multiset SimEvent) = handled .tunnelRecv w := by
  have hnone : arrivals w.sq.items = 0 := by
    refine Multiset.filter_eq_nil.mpr fun e he hev => ?_
    exact absurd (hev.symm.trans (hover e he)) (by simp)
  have hcrossed : (l.map (·.received) : Multiset SimEvent) =
      handled .tunnelRecv w + arrivals w.sq.items := hcross.received
  rw [hcrossed, hnone, add_zero]

/-- At the end of a run without machines every packet was sent when its side sends it, and
arrived the delay of the network later. -/
theorem Plain.trace {args : SimulatorArgs G} (hall : args.onlyClientEvents = false)
    {w : Sim R G} {l : List Crossing} (h : Plain limit packets (.done w) l)
    (hcross : Crosses args (.done w) l) (hover : ∀ e ∈ w.sq.items, e.event = .normalRecv) :
    (∀ c, (times .tunnelSent c w.trace : Multiset Instant) = packets c) ∧
      ∀ c, (times .tunnelRecv c w.trace : Multiset Instant) =
        (packets !c).map (· + (args.network.delay : Int)) := by
  have htrace : w.trace = ((processedEvents w.log).filter (Recorded args)).map (·.adjusted) :=
    hcross.trace
  have hsent (c : Bool) : (sentTimes c l : Multiset Instant) = packets c := by
    have hnone : unsent c w.sq.items = 0 := by
      unfold unsent
      rw [Multiset.filter_eq_nil.mpr]
      · rfl
      · rintro e he ⟨_, hev | hev⟩
        · exact absurd (hev.symm.trans (hover e he)) (by simp)
        · exact absurd (hev.symm.trans (hover e he)) (by simp)
    have hpackets : unsent c w.sq.items + ↑(sentTimes c l) = packets c := h.sent c
    rw [← hpackets, hnone, zero_add]
  constructor
  · intro c
    have hhandled : (processedEvents w.log).filter (·.event = .tunnelSent) = l.map (·.sent) :=
      hcross.sent
    rw [htrace, times_recorded hall (.inl rfl), hhandled, ← hsent]
    unfold sentTimes
    rw [List.filter_map, List.map_map]
    congr 1
    apply List.map_congr_left
    intro x hx
    exact adjusted_prompt (h.prompt x (List.mem_filter.mp hx).1).1.prompt
  · intro c
    have hperm : ((handled .tunnelRecv w).filter (·.client = c)).Perm
        ((l.map (·.received)).filter (·.client = c)) :=
      (Multiset.coe_eq_coe.mp (Plain.arrived hcross hover)).symm.filter _
    have hside : (l.map (·.received)).filter (·.client = c) =
        (l.filter (·.sent.client == !c)).map (·.received) := by
      rw [List.filter_map]
      congr 1
      apply List.filter_congr
      intro x hx
      obtain ⟨⟨_, _, hclient, _⟩, _, _⟩ := hcross.causal x hx
      rw [Function.comp_apply, hclient]
      cases x.sent.client <;> cases c <;> rfl
    have htimes : ((l.filter (·.sent.client == !c)).map (·.received)).map (·.adjusted.time) =
        (sentTimes (!c) l).map (· + (args.network.delay : Int)) := by
      unfold sentTimes
      rw [List.map_map, List.map_map]
      apply List.map_congr_left
      intro x hx
      have hx := (List.mem_filter.mp hx).1
      obtain ⟨hpacket, hbottleneck, hprompt⟩ := h.prompt x hx
      have hexact := (hcross.causal x hx).exact (.inr (by rw [hpacket.prompt]; exact Nat.zero_le _))
      rw [adjusted_prompt hpacket.prompt, hbottleneck] at hexact
      change x.received.adjusted.time = x.sent.time + (args.network.delay : Int)
      rw [hexact]
      exact add_zero _
    rw [htrace, times_recorded hall (.inr rfl), ← hsent, Multiset.map_coe, ← htimes, ← hside]
    exact Multiset.coe_eq_coe.mpr (hperm.map _)

/-- The times of the trace that the simulator returns. -/
theorem Plain.times {args : SimulatorArgs G} (hall : args.onlyClientEvents = false)
    {w : Sim R G} {l : List Crossing} (h : Plain limit packets (.done w) l)
    (hcross : Crosses args (.done w) l) (hover : ∀ e ∈ w.sq.items, e.event = .normalRecv)
    {ts : Bool → List Instant} (hts : ∀ c, packets c = ↑(ts c))
    (hsorted : ∀ c, (ts c).Pairwise (· ≤ ·)) :
    let out := w.trace.mergeSort fun a b => decide (a.time ≤ b.time)
    (∀ c, times .tunnelSent c out = ts c) ∧
      ∀ c, times .tunnelRecv c out = (ts !c).map (· + (args.network.delay : Int)) := by
  obtain ⟨hsent, hrecv⟩ := h.trace hall hcross hover
  constructor
  · intro c
    exact times_sorted (hsorted c) ((hsent c).trans (hts c))
  · intro c
    apply times_sorted
    · apply List.pairwise_map.mpr
      apply (hsorted !c).imp
      intro t t' hle
      lia
    · rw [hrecv, hts, Multiset.map_coe]

/-- A trace of network activity without machines has no padding. -/
theorem Plain.unpadded {args : SimulatorArgs G} (hnet : args.onlyNetworkActivity = true)
    {w : Sim R G} {l : List Crossing} (h : Plain limit packets (.done w) l)
    (hcross : Crosses args (.done w) l) (hover : ∀ e ∈ w.sq.items, e.event = .normalRecv) :
    ∀ e ∈ w.trace, e.containsPadding = false := by
  intro e he
  have htrace : w.trace = ((processedEvents w.log).filter (Recorded args)).map (·.adjusted) :=
    hcross.trace
  rw [htrace] at he
  obtain ⟨y, hy, rfl⟩ := List.mem_map.mp he
  obtain ⟨hy, hrecorded⟩ := List.mem_filter.mp hy
  rw [(adjusted_same y).2.2]
  have hhandled {event : TriggerEvent} (hev : y.event = event) : y ∈ handled event w :=
    List.mem_filter.mpr ⟨hy, decide_eq_true hev⟩
  have hactivity : y.event = .tunnelSent ∨ y.event = .tunnelRecv := by
    unfold Recorded at hrecorded
    rw [hnet] at hrecorded
    simpa using (Bool.and_eq_true_iff.mp hrecorded).1
  rcases hactivity with hev | hev
  · have hsent : handled .tunnelSent w = l.map (·.sent) := hcross.sent
    have hmem := hhandled hev
    rw [hsent] at hmem
    obtain ⟨x, hx, rfl⟩ := List.mem_map.mp hmem
    exact (h.prompt x hx).1.normal
  · have hmem : y ∈ (handled .tunnelRecv w : Multiset SimEvent) := hhandled hev
    rw [← Plain.arrived hcross hover] at hmem
    obtain ⟨x, hx, rfl⟩ := List.mem_map.mp (Multiset.mem_coe.mp hmem)
    obtain ⟨⟨_, _, _, hpadding⟩, _, _⟩ := hcross.causal x hx
    exact hpadding.trans (h.prompt x hx).1.normal

variable [RngCore R]

theorem new_quiet {now : Instant} {padding blocking : F64} {rng : R} {s : SimState R G}
    (h : SimState.new [] now padding blocking none rng = .ok s) : Quiet s := by
  obtain ⟨hintegration, hblocking, _, hactions, htimers⟩ := new_state h
  have hsound := new_sound h
  have hlen := hsound.actions
  rw [hactions] at hlen
  exact ⟨List.length_eq_zero_iff.mp hlen.symm, hactions, htimers, hblocking, hintegration⟩

/-- A run without machines on a trace begins with the packets of the trace. -/
theorem start_plain {args : SimulatorArgs G} {sq : SimQueue} {rngClient rngServer : R} {rng : G}
    {w : Sim R G} (hargs : args.clientIntegration = none ∧ args.serverIntegration = none)
    (hpps : args.network.pps = none) (hlimit : sq.maxPps = some limit) (hbase : sq.BaseTrace)
    (hpackets : ∀ e ∈ sq.items, Packet e)
    (h : Sim.start [] [] sq args rngClient rngServer rng = .ok w) :
    Plain limit (fun c => unsent c sq.items) (.picking w) [] := by
  obtain ⟨hfirst, hclient, hserver, hnetwork, hsq, _⟩ := start_ok h
  have hquiet (c : Bool) : Quiet (w.side c) := by
    cases c with
    | true => exact new_quiet (hargs.1 ▸ hclient)
    | false => exact new_quiet (hargs.2 ▸ hserver)
  obtain ⟨_, hdelays, hzero, hpacks, hclientWindow, hserverWindow⟩ :=
    NetworkBottleneck.new_ok hnetwork
  rw [hpps, hlimit] at hpacks
  have hevents : ∀ e ∈ w.sq.items, Packet e ∧ w.currentTime ≤ e.time := by
    intro e he
    rw [hsq] at he
    refine ⟨hpackets e he, ?_⟩
    obtain ⟨c, hc⟩ := hbase.mem_base he
    exact SimQueue.getFirstTime_le hfirst hc
  have hwindow (c : Bool) : w.network.window c = .new (Duration.fromMillis 1000) := by
    cases c with
    | true => exact hclientWindow
    | false => exact hserverWindow
  have hcounted : Counted limit w.network [] := by
    refine ⟨hdelays, hzero, hpacks, ?_, ?_⟩
    · intro c
      rw [hwindow]
      rfl
    · intro c
      rw [hwindow]
      exact .new _
  refine ⟨hquiet, hcounted, ?_, hevents, ?_, ?_⟩
  · intro x hx
    exact absurd hx (by simp)
  · intro c
    change unsent c w.sq.items + 0 = _
    rw [hsq, add_zero]
  · intro x hx
    exact absurd hx (by simp)

end Config

open Config

/-- When the side of a row sends its packets. -/
def Row.departures (delay : Duration) (startingTime : Instant) (client : Bool) (rows : List Row) :
    List Instant :=
  if client then Row.instants startingTime true rows
  else (Row.instants startingTime false rows).map (· - (delay : Int))

theorem unsent_rows (delay : Duration) (startingTime : Instant) (rows : List Row) (c : Bool) :
    unsent c ↑(rows.map (Row.packet delay startingTime)) =
      ↑(Row.departures delay startingTime c rows) := by
  have hfilter : (rows.map (Row.packet delay startingTime)).filter
      (fun e => e.client = c ∧ (e.event = .normalSent ∨ e.event = .tunnelSent)) =
      (rows.filter (·.sent == c)).map (Row.packet delay startingTime) := by
    rw [List.filter_map]
    congr 1
    apply List.filter_congr
    intro r _
    rw [Function.comp_apply, Bool.eq_iff_iff]
    simp [Row.packet]
  unfold unsent
  rw [Multiset.filter_coe, hfilter, Multiset.map_coe, List.map_map]
  unfold Row.departures Row.instants
  cases c with
  | true =>
    congr 1
    apply List.map_congr_left
    intro r hr
    have hsent : r.sent = true := by simpa using (List.mem_filter.mp hr).2
    simp [Row.packet, hsent]
  | false =>
    rw [if_neg Bool.false_ne_true, List.map_map]
    congr 1
    apply List.map_congr_left
    intro r hr
    have hsent : r.sent = false := by simpa using (List.mem_filter.mp hr).2
    simp [Row.packet, hsent]

theorem instants_sorted {startingTime : Instant} {rows : List Row}
    (h : rows.Pairwise (·.time ≤ ·.time)) (sent : Bool) :
    (Row.instants startingTime sent rows).Pairwise (· ≤ ·) := by
  apply List.pairwise_map.mpr
  apply (h.sublist List.filter_sublist).imp
  intro r r' hle
  unfold Row.instant
  lia

theorem departures_sorted {delay : Duration} {startingTime : Instant} {rows : List Row}
    (h : rows.Pairwise (·.time ≤ ·.time)) (client : Bool) :
    (Row.departures delay startingTime client rows).Pairwise (· ≤ ·) := by
  unfold Row.departures
  split
  · exact instants_sorted h true
  · apply List.pairwise_map.mpr
    apply (instants_sorted h false).imp
    intro t t' hle
    lia

/-- The limit that is estimated for a trace is never reached by its packets. -/
theorem departures_few {delay : Duration} {startingTime : Instant} {rows : List Row} {m : Nat}
    (h : ∀ sent, Uncrowded ((Duration.fromMillis 100 : Duration) : Int) m
      ↑(Row.instants startingTime sent rows)) (client : Bool) :
    Uncrowded ((Duration.fromMillis 1000 : Duration) : Int) (m * 10)
      ↑(Row.departures delay startingTime client rows) := by
  have hten (sent : Bool) : Uncrowded ((Duration.fromMillis 1000 : Duration) : Int) (m * 10)
      ↑(Row.instants startingTime sent rows) := by
    have hcover := (h sent).cover 9
    have hwidth : (9 + 1) • ((Duration.fromMillis 100 : Duration) : Int) =
        ((Duration.fromMillis 1000 : Duration) : Int) := by decide
    rw [hwidth, Nat.mul_comm] at hcover
    exact hcover
  unfold Row.departures
  split
  · exact hten true
  · rw [← Multiset.map_coe]
    have hshift := (hten false).shift (-(delay : Int))
    simpa only [Int.sub_eq_add_neg] using hshift

/-- A trace with a packet has a limit. -/
theorem limit_pos {startingTime : Instant} {rows : List Row} {m : Nat} {r : Row} (hr : r ∈ rows)
    (h : ∀ sent, Uncrowded ((Duration.fromMillis 100 : Duration) : Int) m
      ↑(Row.instants startingTime sent rows)) : 0 < m := by
  have hmem : r.instant startingTime ∈ Row.instants startingTime r.sent rows :=
    List.mem_map_of_mem (List.mem_filter.mpr ⟨hr, beq_self_eq_true _⟩)
  apply Nat.lt_of_lt_of_le _ (h r.sent (r.instant startingTime))
  unfold crowd
  rw [Multiset.countP_pos]
  exact ⟨_, hmem, le_rfl, by lia⟩

/-- The packet of a row is sent and received within the range. -/
structure Row.Fits (range : InstantRange) (delay : Duration) (startingTime : Instant) (r : Row) :
    Prop where
  own : r.instant startingTime ≤ range.last
  received : r.sent = true → r.instant startingTime + delay ≤ range.last
  sent : r.sent = false → range.first ≤ r.instant startingTime - delay

theorem Row.begins (startingTime : Instant) (r : Row) : startingTime ≤ r.instant startingTime := by
  unfold Row.instant
  lia

theorem Row.Fits.packet {range : InstantRange} {delay : Duration} {startingTime : Instant}
    {r : Row} (h : r.Fits range delay startingTime) (hbegun : range.first ≤ startingTime) :
    range.first ≤ (r.packet delay startingTime).time ∧
      (r.packet delay startingTime).due delay ≤ range.last := by
  have hstart := r.begins startingTime
  have hdue : (r.packet delay startingTime).due delay =
      (r.packet delay startingTime).time + delay := if_pos (.inl rfl)
  rw [hdue]
  unfold Row.packet
  cases hr : r.sent with
  | true => exact ⟨hbegun.trans hstart, h.received hr⟩
  | false =>
    refine ⟨h.sent hr, ?_⟩
    change r.instant startingTime - delay + delay ≤ range.last
    rw [Int.sub_add_cancel]
    exact h.own

/-- A line that is written for a row within the range computes nothing outside of it. -/
theorem Row.Fits.line {platform range : InstantRange} {network : Network} {startingTime : Instant}
    {p : Parsed G} {r : Row} {l : List Char} (h : r.Fits range network.delay startingTime)
    (hrange : platform.Holds range) (hbegun : range.first ≤ startingTime) (hwritten : r.Written l)
    (hle : r.time ≤ u64Max) :
    Ranged.line platform network none none startingTime p l =
      Parsed.line network none none startingTime p l := by
  refine Ranged.checked_eq (Fit.widen ?_ hrange) _
  obtain ⟨digits, direction, rfl, hne, hdigits, hvalue, hdirection⟩ := hwritten
  have hnumber : parseU64 (trim digits) = some r.time :=
    hvalue ▸ Row.parseU64_digits hne hdigits (hvalue.trans_le hle)
  have hstart := r.begins startingTime
  unfold Parsed.lineAmounts
  rw [Row.split_written hdigits hdirection]
  dsimp only
  rw [hnumber]
  dsimp only
  have htime : Amount.Fits range (.instant (startingTime + r.time)) :=
    ⟨hbegun.trans hstart, h.own⟩
  cases hr : r.sent with
  | true =>
    rw [hr] at hdirection
    rw [if_pos (List.mem_pair.mp hdirection)]
    exact .cons htime (.cons (by simpa [Parsed.draw] using htime) .nil)
  | false =>
    rw [hr] at hdirection
    have hrecv : direction = ['r'] ∨ direction = ['r', 'n'] := List.mem_pair.mp hdirection
    have hsend : ¬ (direction = ['s'] ∨ direction = ['s', 'n']) := by
      rcases hrecv with rfl | rfl <;> decide
    rw [if_neg hsend, if_pos hrecv]
    have hsent : Amount.Fits range (.instant (startingTime + r.time - network.delay)) :=
      ⟨h.sent hr, (Int.sub_le_self _ (Int.natCast_nonneg _)).trans h.own⟩
    exact .cons htime (.cons hsent (.cons (by simpa [Parsed.draw] using hsent) .nil))

/-- A trace within the range is read as it would be without one. -/
theorem ranged_parseTrace {platform range : InstantRange} {text : List Char} {rows : List Row}
    {network : Network} {startingTime : Instant}
    (hwritten : List.Forall₂ Row.Written rows (lines text)) (hle : ∀ r ∈ rows, r.time ≤ u64Max)
    (hrange : platform.Holds range) (hbegun : range.first ≤ startingTime)
    (hfits : ∀ r ∈ rows, r.Fits range network.delay startingTime) :
    Ranged.parseTrace platform text network startingTime = parseTrace text network startingTime := by
  have hfold {ls : List (List Char)} (hls : List.Forall₂ Row.Written rows ls) (p : Parsed Unit) :
      ls.foldlM (Ranged.line platform network none none startingTime) p =
        ls.foldlM (Parsed.line network none none startingTime) p := by
    clear hwritten
    induction hls generalizing p with
    | nil => rfl
    | @cons r l rows ls hr _ ih =>
      rw [List.foldlM_cons, List.foldlM_cons,
        (hfits r List.mem_cons_self).line hrange hbegun hr (hle r List.mem_cons_self)]
      congr 1
      funext p'
      exact ih (fun x hx => hle x (List.mem_cons_of_mem _ hx))
        (fun x hx => hfits x (List.mem_cons_of_mem _ hx)) p'
  unfold Ranged.parseTrace Ranged.parseTraceAdvanced parseTrace parseTraceAdvanced
  dsimp only
  rw [hfold hwritten]

/-- Without machines the simulator reproduces a trace within the range of the platform, unless its
instants are `Duration::MAX` apart: the client sends and receives when the trace says so, and the
server the delay of the network later or earlier. -/
theorem trace_reproduced [RngCore R] {platform range : InstantRange} {text : List Char} {rows : List Row}
    {delay : Duration} {startingTime : Instant}
    (hwritten : List.Forall₂ Row.Written rows (lines text))
    (hsome : rows ≠ []) (hlen : rows.length < 2 ^ 28) (hle : ∀ r ∈ rows, r.time ≤ u64Max)
    (hsorted : rows.Pairwise (·.time ≤ ·.time)) (hrange : platform.Holds range)
    (hbegun : range.first ≤ startingTime)
    (hfits : ∀ r ∈ rows, r.Fits range delay startingTime) (rngClient rngServer : R) (rng : G) :
    ∃ sq out steps, Ranged.parseTrace platform text ⟨delay, none⟩ startingTime = .ok sq ∧
      (∀ fuel ≥ steps,
        Ranged.sim platform [] [] sq delay 0 true rngClient rngServer rng fuel = .ok out) ∧
      times .tunnelSent true out = Row.instants startingTime true rows ∧
      times .tunnelRecv true out = Row.instants startingTime false rows ∧
      times .tunnelRecv false out =
        (Row.instants startingTime true rows).map (· + (delay : Int)) ∧
      times .tunnelSent false out =
        (Row.instants startingTime false rows).map (· - (delay : Int)) ∧
      ∀ e ∈ out, e.containsPadding = false := by
  let args : SimulatorArgs G := .new ⟨delay, none⟩ 0 true
  obtain ⟨sq, m, hparse, hbase, hitems, hlimit, hm, hfew⟩ :
      ∃ sq m, parseTrace text ⟨delay, none⟩ startingTime = .ok sq ∧ sq.BaseTrace ∧
        sq.items = ↑(rows.map (Row.packet delay startingTime)) ∧ sq.maxPps = some (m * 10) ∧
        m ≤ rows.length ∧ ∀ sent, Uncrowded ((Duration.fromMillis 100 : Duration) : Int) m
          ↑(Row.instants startingTime sent rows) := parseTrace_rows hwritten hsorted hle
  have hranged : Ranged.parseTrace platform text ⟨delay, none⟩ startingTime = .ok sq :=
    (ranged_parseTrace hwritten hle hrange hbegun hfits).trans hparse
  have hwf := hbase.built.wellFormed
  obtain ⟨r, hr⟩ := List.exists_mem_of_ne_nil rows hsome
  have hpos : 0 < m := limit_pos hr hfew
  have hpackets : ∀ e ∈ sq.items, Packet e ∧ e.event = .normalSent := by
    intro e he
    rw [hitems] at he
    obtain ⟨r, _, rfl⟩ := List.mem_map.mp (Multiset.mem_coe.mp he)
    exact ⟨⟨.inl rfl, rfl, rfl⟩, rfl⟩
  have hnone : ∀ e ∈ sq.items, e.event ≠ .tunnelRecv := by
    intro e he hev
    exact absurd ((hpackets e he).2.symm.trans hev) (by simp)
  have hpps : ∀ p, args.network.pps.or sq.maxPps = some p → 0 < p ∧ p < 2 ^ 32 := by
    intro p hp
    have hp' : some (m * 10) = some p := hlimit.symm.trans hp
    obtain rfl := Option.some.inj hp'
    omega
  have hfraction : ∀ x ∈ args.fractions, Framework.isFraction x = true := by
    have hzero : Framework.isFraction (Flt.ofRat 0) = true := by decide +kernel
    simpa [args, SimulatorArgs.fractions, SimulatorArgs.new] using hzero
  have hmem : r.packet delay startingTime ∈ sq.items := hitems ▸ List.mem_map_of_mem hr
  obtain ⟨c, hc⟩ := hbase.mem_base hmem
  obtain ⟨w, hstart⟩ : ∃ w, Sim.start [] [] sq args rngClient rngServer rng = .ok w :=
    Sim.start_total rngClient rngServer rng hc hpps (by simp) (by simp) hfraction
  have hdepart (c : Bool) : unsent c sq.items = ↑(Row.departures delay startingTime c rows) := by
    rw [hitems]
    exact unsent_rows delay startingTime rows c
  have hplain := start_plain ⟨rfl, rfl⟩ rfl hlimit hbase (fun e he => (hpackets e he).1) hstart
  have hfew' (c : Bool) : Uncrowded ((Duration.fromMillis 1000 : Duration) : Int) (m * 10)
      (unsent c sq.items) := hdepart c ▸ departures_few hfew c
  have hbegin : Crossed args sq (.picking w, []) := .start ⟨⟨_, _, _, _, _, w, hstart, rfl⟩, rfl⟩
  have hin : InTime range delay (.picking w : Config R G) := by
    refine start_inTime hstart fun e he => ?_
    rw [hitems] at he
    obtain ⟨x, hx, rfl⟩ := List.mem_map.mp (Multiset.mem_coe.mp he)
    exact (hfits x hx).packet hbegun
  have hsame (fuel : Nat) : Ranged.run platform args fuel (.picking w) =
      (Config.picking w).run args fuel :=
    ranged_run hrange hwf hnone rfl ⟨rfl, rfl⟩ hfew' hbegin hplain hin fuel
  obtain ⟨w', l, hrun, hl, hdone, hover⟩ :=
    hplain.run hwf ⟨rfl, rfl⟩ hfew' hbegin (by simp) le_rfl
  have hcross : Crosses args (.done w') l := run_crosses hwf hnone hl
  obtain ⟨hsents, hrecvs⟩ := hdone.times rfl hcross hover hdepart (departures_sorted hsorted)
  refine ⟨sq, _, (Config.picking w).stepsLeft, hranged, ?_, hsents true, ?_, hrecvs false,
    hsents false, ?_⟩
  · intro fuel hfuel
    unfold Ranged.sim Ranged.simAdvanced
    rw [bind_eq hstart, hsame, bind_eq (run_mono hrun hfuel)]
    rfl
  · rw [hrecvs true]
    change ((Row.instants startingTime false rows).map (· - (delay : Int))).map
      (· + (delay : Int)) = _
    rw [List.map_map]
    have hback : ((· + (delay : Int)) ∘ (· - (delay : Int))) = (id : Instant → Instant) := by
      funext t
      exact sub_add_cancel t (delay : Int)
    rw [hback, List.map_id]
  · intro e he
    exact hdone.unpadded rfl hcross hover e ((List.mergeSort_perm ..).mem_iff.mp he)

/-- A packet that the client sends at the start and one that it receives 5 later. -/
theorem two_packets_reproduced : ∃ sq out steps,
    Ranged.parseTrace .unix "0,s\n5,rn\n".toList ⟨10, none⟩ 0 = .ok sq ∧
      (∀ fuel ≥ steps, Ranged.sim (R := Unit) (G := Unit) .unix [] [] sq 10 0 true () () () fuel =
        .ok out) ∧
      times .tunnelSent true out = [0] ∧ times .tunnelRecv true out = [5] ∧
      times .tunnelRecv false out = [10] ∧ times .tunnelSent false out = [-5] ∧
      ∀ e ∈ out, e.containsPadding = false := by
  have hlines : lines "0,s\n5,rn\n".toList = [['0', ',', 's'], ['5', ',', 'r', 'n']] := by
    decide +kernel
  have hwritten : List.Forall₂ Row.Written [⟨0, true⟩, ⟨5, false⟩]
      (lines "0,s\n5,rn\n".toList) := by
    rw [hlines]
    refine .cons ⟨['0'], ['s'], rfl, by simp, List.forall_mem_singleton.mpr rfl, rfl, by decide⟩
      (.cons ⟨['5'], ['r', 'n'], rfl, by simp, List.forall_mem_singleton.mpr rfl, rfl,
        by decide⟩ .nil)
  let range : InstantRange := ⟨-5, 10, by decide⟩
  have hrange : InstantRange.unix.Holds range := ⟨by decide, by decide, by decide⟩
  have hsent : Row.Fits range 10 0 ⟨0, true⟩ := ⟨by decide, by decide, by decide⟩
  have hrecv : Row.Fits range 10 0 ⟨5, false⟩ := ⟨by decide, by decide, by decide⟩
  have hfits : ∀ r ∈ [(⟨0, true⟩ : Row), ⟨5, false⟩], r.Fits range 10 0 := by
    simpa using ⟨hsent, hrecv⟩
  exact trace_reproduced hwritten (by simp) (by decide)
    (by decide) (by decide) hrange (by decide) hfits () () ()

/-- With the longest delay that there is a packet that the client receives has no time to be
sent at. -/
theorem longest_delay_overflows :
    List.Forall₂ Row.Written [⟨0, false⟩] (lines "0,r\n".toList) ∧
      Amount.Fits .unix (.instant 0) ∧ Amount.Fits .unix (.duration Duration.max) ∧
      Ranged.parseTrace .unix "0,r\n".toList ⟨Duration.max, none⟩ 0 = .error .overflow := by
  have hlines : lines "0,r\n".toList = [['0', ',', 'r']] := by decide +kernel
  refine ⟨?_, by decide, by decide, ?_⟩
  · rw [hlines]
    exact .cons ⟨['0'], ['r'], rfl, by simp, List.forall_mem_singleton.mpr rfl, rfl, by decide⟩
      .nil
  · let p : Parsed Unit :=
      ⟨.new, .new (Duration.fromMillis 100), .new (Duration.fromMillis 100), 0, 0, ()⟩
    have hfit : ¬ Fit .unix
        (p.lineAmounts ⟨Duration.max, none⟩ none none 0 ['0', ',', 'r']) := by
      unfold Fit
      decide +kernel
    have hline : Ranged.line .unix ⟨Duration.max, none⟩ none none 0 p ['0', ',', 'r'] =
        .error .overflow := Ranged.checked_overflow hfit _
    unfold Ranged.parseTrace Ranged.parseTraceAdvanced
    dsimp only
    rw [hlines, List.foldlM_cons, hline]
    rfl

end Maybenot

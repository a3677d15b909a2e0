import Maybenot.Proofs.Delays

namespace Maybenot
open Lib

variable {R G : Type}

/-- What holds of all neighbours in a list holds of the first two, and of all in the rest. -/
theorem forall_neighbours {P : List α → α → α → Prop} {a b : α} {xs : List α} :
    (∀ before x y after, a :: b :: xs = before ++ x :: y :: after → P before x y) ↔
      P [] a b ∧ ∀ before x y after, b :: xs = before ++ x :: y :: after → P (a :: before) x y := by
  constructor
  · intro h
    refine ⟨h [] a b xs rfl, fun before x y after he => h (a :: before) x y after ?_⟩
    rw [he]
    rfl
  · intro h before x y after he
    cases before with
    | nil =>
      simp only [List.nil_append, List.cons.injEq] at he
      obtain ⟨rfl, rfl, _⟩ := he
      exact h.1
    | cons z before =>
      simp only [List.cons_append, List.cons.injEq] at he
      obtain ⟨rfl, he⟩ := he
      exact h.2 before x y after he

namespace NetworkBottleneck

/-- When the packets arrive that a side sends at these times, one after the other. -/
def arrivals (n : NetworkBottleneck) (c : Bool) : List Instant → List Instant
  | [] => []
  | t :: ts => (t + (n.sample t c).1.1) :: (n.sample t c).2.arrivals c ts

/-- What is added to the delay of a packet that is sent after others: a part of the window for
each one that was sent in the window up to it and that is beyond the limit. -/
def extra (n : NetworkBottleneck) (width : Duration) (before : List Instant) (t : Instant) :
    Duration :=
  n.surcharge (crowd (width : Int) ↑(before ++ [t]) (t - (width : Int)))

/-- A bottleneck after packets that a side sent at these times. -/
structure Sent (start : NetworkBottleneck) (c : Bool) (width : Duration) (before : List Instant)
    (n : NetworkBottleneck) : Prop where
  counts : (n.window c).Counts before
  width : (n.window c).window = width
  surcharge : ∀ count, n.surcharge count = start.surcharge count
  network : n.network = start.network

theorem setWindow_surcharge (n : NetworkBottleneck) (c : Bool) (w : WindowCount) (count : Nat) :
    (n.setWindow c w).surcharge count = n.surcharge count := by
  cases c <;> rfl

theorem Sent.start {network : Network} {window : Duration} {queuePps : Option Nat}
    {n : NetworkBottleneck} (h : NetworkBottleneck.new network window queuePps = .ok n)
    (c : Bool) : Sent n c window [] n := by
  obtain ⟨_, _, _, _, hclient, hserver⟩ := NetworkBottleneck.new_ok h
  have hwindow : n.window c = .new window := by
    cases c with
    | false => exact hserver
    | true => exact hclient
  exact ⟨hwindow ▸ WindowCount.Counts.new window, hwindow ▸ rfl, fun _ => rfl, rfl⟩

/-- The delay of one more packet. -/
theorem Sent.sample {start n : NetworkBottleneck} {c : Bool} {width : Duration}
    {before : List Instant} {t : Instant} (h : Sent start c width before n)
    (hlast : ∀ x ∈ before, x ≤ t) :
    (n.sample t c).1.1 = start.extra width before t + start.network.sample ∧
      Sent start c width (before ++ [t]) (n.sample t c).2 := by
  obtain ⟨hcount, hcounts, hwidth⟩ := h.counts.add hlast
  rw [sample_eq]
  refine ⟨?_, ?_⟩
  · rw [hcount, h.width, h.surcharge, h.network]
    rfl
  · have hown : (n.setWindow c ((n.window c).add t).2).window c = ((n.window c).add t).2 := by
      rw [window_setWindow, if_pos rfl]
    refine ⟨?_, ?_, fun count => ?_, ?_⟩
    · exact Eq.mpr (congrArg (WindowCount.Counts · _) hown) hcounts
    · exact (congrArg (·.window) hown).trans (hwidth.trans h.width)
    · exact (setWindow_surcharge n c _ count).trans (h.surcharge count)
    · exact Eq.trans (by cases c <;> rfl) h.network

/-- The next packet does not overtake: it is sent later by what its extra delay is less. -/
def Follows (n : NetworkBottleneck) (width : Duration) (before : List Instant) (t u : Instant) :
    Prop :=
  (n.extra width before t : Int) ≤ n.extra width (before ++ [t]) u + (u - t)

theorem Sent.chain {start n : NetworkBottleneck} {c : Bool} {width : Duration}
    {before times : List Instant} (h : Sent start c width before n)
    (hsorted : (before ++ times).Pairwise (· ≤ ·)) :
    (n.arrivals c times).IsChain (· ≤ ·) ↔
      ∀ earlier t u later, times = earlier ++ t :: u :: later →
        start.Follows width (before ++ earlier) t u := by
  induction times generalizing before n with
  | nil => exact iff_of_true .nil fun earlier t u later he => absurd he (by simp)
  | cons t times ih =>
    have hlast : ∀ x ∈ before, x ≤ t := fun x hx =>
      (List.pairwise_append.mp hsorted).2.2 x hx t List.mem_cons_self
    obtain ⟨hdelay, hsent⟩ := h.sample hlast
    rw [List.append_cons] at hsorted
    have hih := ih hsent hsorted
    cases times with
    | nil =>
      refine iff_of_true (.singleton _) fun earlier x y later he => ?_
      cases earlier <;> simp at he
    | cons u times =>
      have hlast' : ∀ x ∈ before ++ [t], x ≤ u := fun x hx =>
        (List.pairwise_append.mp hsorted).2.2 x hx u List.mem_cons_self
      obtain ⟨hdelay', _⟩ := hsent.sample hlast'
      have hhead : t + ((n.sample t c).1.1 : Int) ≤ u + (((n.sample t c).2.sample u c).1.1 : Int) ↔
          start.Follows width before t u := by
        rw [hdelay, hdelay', Follows]
        lia
      simp only [List.append_assoc, List.singleton_append] at hih
      rw [forall_neighbours, List.append_nil, ← hhead, ← hih]
      exact List.isChain_cons_cons

/-- More packets are not delayed less, as long as their number does not overflow. -/
theorem surcharge_mono {n : NetworkBottleneck} {count count' : Nat} (hlimit : 0 < n.ppsLimit)
    (h : count ≤ count') (hmax : count' ≤ 2 ^ 32) : n.surcharge count ≤ n.surcharge count' := by
  unfold surcharge
  by_cases hover : count > n.ppsLimit
  · rw [if_pos hover, if_pos (lt_of_lt_of_le hover h)]
    have hu32 {k : Nat} (hk : k ≤ 2 ^ 32) : asU32 (k - n.ppsLimit) = k - n.ppsLimit :=
      Nat.mod_eq_of_lt (by omega)
    rw [hu32 hmax, hu32 (h.trans hmax)]
    exact Nat.mul_le_mul_left _ (Nat.sub_le_sub_right h _)
  · rw [if_neg hover]
    exact Nat.zero_le _

/-- In a window that holds all packets sent so far each of them counts. -/
theorem extra_burst (n : NetworkBottleneck) {width : Duration} {before : List Instant}
    {t : Instant} (h : ∀ x ∈ before, x ≤ t ∧ t ≤ x + width) :
    n.extra width before t = n.surcharge (before.length + 1) := by
  have hcrowd : crowd (width : Int) ↑(before ++ [t]) (t - (width : Int)) = before.length + 1 := by
    have hall : ∀ x ∈ (↑(before ++ [t]) : Multiset Instant),
        t - (width : Int) ≤ x ∧ x ≤ t - (width : Int) + width := by
      intro x hx
      rcases List.mem_append.mp hx with hx | hx
      · obtain ⟨hle, hin⟩ := h x hx
        lia
      · obtain rfl := List.mem_singleton.mp hx
        lia
    rw [crowd, Multiset.countP_eq_card.mpr hall, Multiset.coe_card, List.length_append]
    rfl
  rw [extra, hcrowd]

theorem new_limit {network : Network} {window : Duration} {queuePps : Option Nat}
    {n : NetworkBottleneck} (h : NetworkBottleneck.new network window queuePps = .ok n) :
    0 < n.ppsLimit := by
  unfold NetworkBottleneck.new at h
  dsimp only at h
  split at h
  · exact absurd h (by simp)
  · rename_i hzero
    obtain rfl := Except.ok.inj h
    apply Nat.pos_of_ne_zero
    intro hlimit
    change network.pps.getD (queuePps.getD usizeMax) = 0 at hlimit
    exact hzero (congrArg asU32 hlimit)

/-- Packets that are all sent within one window do not overtake each other. -/
theorem burst_follows {n : NetworkBottleneck} {width : Duration}
    {before after : List Instant} {t u : Instant} (hlimit : 0 < n.ppsLimit)
    (hsorted : (before ++ t :: u :: after).Pairwise (· ≤ ·))
    (hburst : ∀ x ∈ before ++ t :: u :: after, ∀ y ∈ before ++ t :: u :: after, y ≤ x + width)
    (hmax : (before ++ t :: u :: after).length ≤ 2 ^ 32) : n.Follows width before t u := by
  obtain ⟨_, htail, hcross⟩ := List.pairwise_append.mp hsorted
  have htu : t ≤ u := (List.pairwise_cons.mp htail).1 u List.mem_cons_self
  have hmem {x : Instant} (hx : x ∈ before ∨ x = t ∨ x = u) :
      x ∈ before ++ t :: u :: after := by
    rcases hx with hx | rfl | rfl <;> simp [*]
  have hfirst : n.extra width before t = n.surcharge (before.length + 1) :=
    n.extra_burst fun x hx => ⟨hcross x hx t List.mem_cons_self,
      hburst x (hmem (.inl hx)) t (hmem (.inr (.inl rfl)))⟩
  have hsecond : n.extra width (before ++ [t]) u = n.surcharge (before.length + 1 + 1) := by
    rw [n.extra_burst, List.length_append]
    · rfl
    · intro x hx
      rcases List.mem_append.mp hx with hx | hx
      · exact ⟨hcross x hx u (List.mem_cons_of_mem _ List.mem_cons_self),
          hburst x (hmem (.inl hx)) u (hmem (.inr (.inr rfl)))⟩
      · obtain rfl := List.mem_singleton.mp hx
        exact ⟨htu, hburst x (hmem (.inr (.inl rfl))) u (hmem (.inr (.inr rfl)))⟩
  have hlength : before.length + 1 + 1 ≤ 2 ^ 32 := by
    simp only [List.length_append, List.length_cons] at hmax
    omega
  have hmono := surcharge_mono hlimit (Nat.le_succ (before.length + 1)) hlength
  rw [Follows, hfirst, hsecond]
  lia

/-- The packets of one direction arrive in the order they are sent exactly if each is sent later
than the one before it by at least what its extra delay is less, and so they do if they are all
sent within one window. -/
theorem in_order_iff {network : Network} {window : Duration} {queuePps : Option Nat}
    {n : NetworkBottleneck} (h : NetworkBottleneck.new network window queuePps = .ok n) (c : Bool)
    {times : List Instant} (hsorted : times.Pairwise (· ≤ ·)) :
    ((n.arrivals c times).Pairwise (· ≤ ·) ↔
      ∀ before t u after, times = before ++ t :: u :: after → n.Follows window before t u) ∧
    ((∀ t ∈ times, ∀ u ∈ times, u ≤ t + window) → times.length ≤ 2 ^ 32 →
      (n.arrivals c times).Pairwise (· ≤ ·)) := by
  have hiff : (n.arrivals c times).Pairwise (· ≤ ·) ↔
      ∀ before t u after, times = before ++ t :: u :: after → n.Follows window before t u := by
    rw [← List.isChain_iff_pairwise]
    exact (Sent.start h c).chain hsorted
  refine ⟨hiff, fun hburst hmax => hiff.mpr ?_⟩
  intro before t u after he
  subst he
  exact burst_follows (new_limit h) hsorted hburst hmax

/-- A packet just over a second after a burst of three overtakes the last of them. -/
theorem burst_overtaken : ∃ n, NetworkBottleneck.new ⟨10000000, some 1⟩ 1000000000 none = .ok n ∧
    ([0, 0, 0, 1000000001] : List Instant).Pairwise (· ≤ ·) ∧
    n.arrivals true [0, 0, 0, 1000000001] = [10000000, 1010000000, 2010000000, 1010000001] ∧
    ¬ (n.arrivals true [0, 0, 0, 1000000001]).Pairwise (· ≤ ·) := by
  refine ⟨_, rfl, by decide, by decide +kernel, by decide +kernel⟩

/-- Without the last packet the burst is in order. -/
theorem burst_in_order : ∃ n, NetworkBottleneck.new ⟨10000000, some 1⟩ 1000000000 none = .ok n ∧
    (n.arrivals true [0, 0, 0]).Pairwise (· ≤ ·) := by
  obtain ⟨n, hn⟩ : ∃ n, NetworkBottleneck.new ⟨10000000, some 1⟩ 1000000000 none = .ok n :=
    ⟨_, rfl⟩
  exact ⟨n, hn, (in_order_iff hn true (by decide)).2 (by decide) (by decide)⟩

theorem arrivals_congr {n m : NetworkBottleneck} {c : Bool} (hw : m.window c = n.window c)
    (hs : ∀ count, m.surcharge count = n.surcharge count) (hn : m.network = n.network)
    (times : List Instant) : m.arrivals c times = n.arrivals c times := by
  induction times generalizing n m with
  | nil => rfl
  | cons t times ih =>
    rw [arrivals, arrivals, sample_eq, sample_eq, hw, hs, hn]
    congr 1
    apply ih
    · rw [window_setWindow, window_setWindow, if_pos rfl, if_pos rfl]
    · intro count
      rw [setWindow_surcharge, setWindow_surcharge, hs]
    · cases c <;> exact hn

theorem pushAggregateDelay_rest (n : NetworkBottleneck) (d : Duration) (t : Instant)
    (c c' : Bool) : (n.pushAggregateDelay d t c).window c' = n.window c' ∧
      (∀ count, (n.pushAggregateDelay d t c).surcharge count = n.surcharge count) ∧
      (n.pushAggregateDelay d t c).network = n.network := by
  cases c <;> cases c' <;> exact ⟨rfl, fun _ => rfl, rfl⟩

end NetworkBottleneck

namespace Sim

/-- What a packet that is sent leaves of the bottleneck for the packets after it. -/
theorem sendPacket_arrivals (w : Sim R G) (e : SimEvent) (c : Bool) (times : List Instant) :
    (w.sendPacket e).network.arrivals c times =
      (w.network.sample w.currentTime e.client).2.arrivals c times := by
  unfold sendPacket
  dsimp only [Sim.pushSim]
  split
  · split
    · obtain ⟨hw, hs, hn⟩ := NetworkBottleneck.pushAggregateDelay_rest
        (w.network.sample w.currentTime e.client).2 _ w.currentTime e.client c
      exact NetworkBottleneck.arrivals_congr hw hs hn times
    · rfl
  · rfl

/-- Without delays of the integrations a packet arrives after the delay that is sampled. -/
theorem sendPacket_arrives {w : Sim R G} {e : SimEvent} (hnow : e.time = w.currentTime)
    (hprompt : e.integrationDelay = 0) (hnone : (w.side !e.client).integration = none) :
    (w.sendPacket e).sq = w.sq.pushSim
      (arrival e (e.time + (w.network.sample e.time e.client).1.1) 0) := by
  have hdelay : (w.side !e.client).reportingDelay w.rng = (0, w.rng) := by
    unfold SimState.reportingDelay SimState.drawDelay
    rw [hnone]
  have htime (d : Duration) : (if e.containsPadding then
      w.currentTime + ((0 : Duration) : Int) + d + ((0 : Duration) : Int)
      else max (w.currentTime - ((0 : Duration) : Int) + d + ((0 : Duration) : Int))
        w.currentTime) = w.currentTime + d := by
    split <;> lia
  unfold sendPacket arrival
  rw [hdelay, hprompt, hnow]
  dsimp only [Sim.pushSim]
  rw [htime]

/-- The packets that pass the network stack one after the other reach the other side when the
bottleneck says. -/
theorem stackAll_arrivals {w : Sim R G} {c : Bool} {es : List SimEvent}
    (hes : ∀ e ∈ es, e.event = .tunnelSent ∧ e.client = c ∧ e.integrationDelay = 0)
    (hnone : (w.side !c).integration = none) :
    ∃ w', w.stackAll (es.map fun e => (e.time, e)) = .ok w' ∧
      w'.sq = (List.zipWith (fun e t => arrival e t 0) es
        (w.network.arrivals c (es.map (·.time)))).foldl SimQueue.pushSim w.sq := by
  induction es generalizing w with
  | nil => exact ⟨w, rfl, rfl⟩
  | cons e es ih =>
    obtain ⟨he, rfl, hprompt⟩ := hes e List.mem_cons_self
    let now : Sim R G := { w with currentTime := e.time }
    have hside (c : Bool) : now.side c = w.side c := by cases c <;> rfl
    have hstack := stack_sent now he
    have hsent : (now.sendPacket e).side (!e.client) = w.side (!e.client) :=
      (sends_side (simNetworkStack_ok hstack) _).trans (hside _)
    obtain ⟨w', hrest, hsq⟩ := ih (w := now.sendPacket e)
      (fun y hy => hes y (List.mem_cons_of_mem _ hy)) ((congrArg (·.integration) hsent).trans hnone)
    refine ⟨w', (bind_eq hstack).trans hrest, ?_⟩
    have harrives := sendPacket_arrives (w := now) rfl hprompt ((hside _).symm ▸ hnone)
    rw [hsq, harrives, sendPacket_arrivals]
    rfl

end Sim

end Maybenot

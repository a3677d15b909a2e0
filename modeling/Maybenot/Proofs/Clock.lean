import Maybenot.Proofs.Peek

namespace Maybenot.Sim
open Lib

variable {R G : Type}

/-- What the search for the next queued event looks at. -/
def view (w : Sim R G) : View R G where
  sq := w.sq
  client := w.client
  server := w.server
  clientNetworkDelaySum := w.network.clientAggregateBaseDelay
  serverNetworkDelaySum := w.network.serverAggregateBaseDelay
  currentTime := w.currentTime

theorem queueWait_eq (w : Sim R G) : w.queueWait = w.view.peekQueue w.otherWait := rfl

theorem view_side (w : Sim R G) (c : Bool) : w.view.side c = w.side c := rfl

/-- The wait for the queue is the one for the head that it shows. -/
theorem queueWait_head {w : Sim R G} (hwf : w.sq.WellFormed) {q : Duration} {k : Queue} {c : Bool}
    {e : SimEvent} (hq : w.queueWait = .ok (↑q, k, c)) (he : ((w.sq.side c).heap k).peek = some e) :
    q = w.view.wait c k e := by
  rw [queueWait_eq] at hq
  rcases View.peekQueue_spec (v := w.view) hwf w.otherWait with ⟨htop, _⟩ | ⟨c', j, y, hy, hhead, _, _⟩
  · rw [htop] at hq
    exact absurd (congrArg Prod.fst (Except.ok.inj hq)) (by simp)
  · obtain ⟨hwait, hrest⟩ := Prod.mk.inj (Except.ok.inj (hy.symm.trans hq))
    obtain ⟨rfl, rfl⟩ := Prod.mk.inj hrest
    obtain rfl := Option.some.inj (hhead.symm.trans he)
    exact (WithTop.coe_injective hwait).symm

/-- No event is released before the wait that was chosen; only packets that bypass a
blocking may be overlooked. -/
theorem chosen_le {w : Sim R G} (hwf : w.sq.WellFormed) {x : Wait} {k : Queue} {c : Bool}
    (hq : w.queueWait = .ok (x, k, c)) {d : Duration} (hx : d ≤ x) (hother : d ≤ w.otherWait)
    {c' : Bool} {j : Queue} {y : SimEvent} (hy : y ∈ w.view.items c' j) (hj : j ≠ .bypassable) :
    d ≤ w.view.wait c' j y := by
  rw [queueWait_eq] at hq
  have hle : (d : Wait) ≤ w.view.wait c' j y := by
    rcases View.peekQueue_spec (v := w.view) hwf w.otherWait with ⟨htop, hlate⟩ | ⟨c1, k1, e, hans, _, _, hall⟩
    · exact hother.trans (hlate c' j y hy).le
    · obtain ⟨hwait, _⟩ := Prod.mk.inj (Except.ok.inj (hans.symm.trans hq))
      rw [← hwait] at hx
      exact hx.trans (WithTop.coe_le_coe.mpr (hall c' j y hy fun _ hs => hj hs.1))
  exact WithTop.coe_le_coe.mp hle

theorem le_otherWait {w : Sim R G} {x : Wait} (hs : x ≤ w.actionWait) (hi : x ≤ w.timerWait)
    (hb : x ≤ w.expiryWait.1) (hn : x ≤ w.delayWait) : x ≤ w.otherWait :=
  le_min (le_min (le_min hs hi) hb) hn

/-- An event that blocking does not hold back waits for its own time. -/
theorem wait_free {w : Sim R G} {c : Bool} {k : Queue} {e : SimEvent}
    (hfree : ¬ w.view.Held c e) : w.view.wait c k e =
      Instant.durationSince (e.moved k (w.network.aggregateBaseDelay c)).time w.currentTime :=
  View.wait_of_free hfree

/-- A packet that blocking holds back waits for its end. -/
theorem held_wait {w : Sim R G} {c : Bool} {k : Queue} {e : SimEvent} {u : Instant}
    (hk : k ≠ .base) (hheld : w.view.Held c e) (hu : (w.side c).blockingUntil = some u) :
    Instant.durationSince u w.currentTime ≤ w.view.wait c k e := by
  unfold View.wait View.release
  rw [if_neg hk, if_pos hheld, view_side, hu, Option.getD_some]
  exact View.durationSince_le (le_max_right _ _)

/-- The event that is picked comes at the time that was waited for. -/
theorem picked_time {w : Sim R G} (hwf : w.sq.WellFormed) {q : Duration} {k : Queue} {c : Bool}
    {e queued next : SimEvent} (hq : w.queueWait = .ok (↑q, k, c))
    (he : ((w.sq.side c).heap k).peek = some e)
    (hqueued : queued = e.moved k (w.network.aggregateBaseDelay c))
    (hnext : next = queued.forward (w.currentTime + q)) : next.time = w.currentTime + q := by
  have hwait := queueWait_head hwf hq he
  have hown : Instant.durationSince (e.moved k (w.network.aggregateBaseDelay c)).time
      w.currentTime ≤ w.view.wait c k e :=
    View.ownWait_le (v := w.view) hwf (BinaryHeap.peek_mem he)
  rw [← hwait, ← hqueued] at hown
  subst hnext
  unfold Instant.durationSince at hown
  unfold SimEvent.forward
  split
  · rfl
  · lia

/-- The expiry that is next is the first one of both sides. -/
theorem expiryWait_some {w : Sim R G} {b : Duration} {c : Bool} (h : w.expiryWait = (↑b, c)) :
    ∃ u, (w.side c).blockingUntil = some u ∧ b = Instant.durationSince u w.currentTime ∧
      ∀ c' u', (w.side c').blockingUntil = some u' → u ≤ u' := by
  have hsides (u u' : Instant) (hle : u ≤ u') (hc : (w.side c).blockingUntil = some u)
      (hc' : (w.side !c).blockingUntil = some u' ∨ (w.side !c).blockingUntil = none) :
      ∀ c' u', (w.side c').blockingUntil = some u' → u ≤ u' := by
    intro c' x hx
    by_cases hcc : c' = c
    · rw [hcc, hc] at hx
      exact (Option.some.inj hx).le
    · rw [Bool.eq_not_of_ne hcc] at hx
      rcases hc' with hc' | hc'
      · rw [hc'] at hx
        exact hle.trans (Option.some.inj hx).le
      · exact absurd (hc'.symm.trans hx) (by simp)
  unfold expiryWait peekBlockedExp at h
  split at h
  · rename_i uc us hc hs
    split at h
    · rename_i hlt
      obtain ⟨hb, rfl⟩ := Prod.mk.inj h
      exact ⟨uc, hc, (WithTop.coe_injective hb).symm, hsides uc us hlt.le hc (.inl hs)⟩
    · rename_i hlt
      obtain ⟨hb, rfl⟩ := Prod.mk.inj h
      exact ⟨us, hs, (WithTop.coe_injective hb).symm, hsides us uc (not_lt.mp hlt) hs (.inl hc)⟩
  · rename_i uc hc hs
    obtain ⟨hb, rfl⟩ := Prod.mk.inj h
    exact ⟨uc, hc, (WithTop.coe_injective hb).symm, hsides uc uc le_rfl hc (.inr hs)⟩
  · rename_i us hc hs
    obtain ⟨hb, rfl⟩ := Prod.mk.inj h
    exact ⟨us, hs, (WithTop.coe_injective hb).symm, hsides us us le_rfl hs (.inr hc)⟩
  · exact absurd (congrArg Prod.fst h) (by simp)

theorem expiryWait_le {w : Sim R G} {c : Bool} {u : Instant}
    (h : (w.side c).blockingUntil = some u) :
    w.expiryWait.1 ≤ (Instant.durationSince u w.currentTime : Duration) := by
  cases hb : w.expiryWait with
  | mk b c1 =>
    have hsome : b ≠ ⊤ := by
      rintro rfl
      unfold expiryWait peekBlockedExp at hb
      cases c
      · change w.server.blockingUntil = some u at h
        rw [h] at hb
        cases hc : w.client.blockingUntil with
        | none => simp [hc] at hb
        | some x =>
          rw [hc] at hb
          dsimp only at hb
          split at hb <;> exact absurd (congrArg Prod.fst hb) (by simp)
      · change w.client.blockingUntil = some u at h
        rw [h] at hb
        cases hc : w.server.blockingUntil with
        | none => simp [hc] at hb
        | some x =>
          rw [hc] at hb
          dsimp only at hb
          split at hb <;> exact absurd (congrArg Prod.fst hb) (by simp)
    obtain ⟨d, rfl, _⟩ := exists_wait hsome
    obtain ⟨v, _, rfl, hall⟩ := expiryWait_some hb
    exact WithTop.coe_le_coe.mpr (View.durationSince_le (hall c u h))

/-- What is taken is the first entry, or it is taken from the others. -/
theorem takeFirst_cons {p : α → Bool} {x : Option α} {xs ys : List (Option α)} {i : Nat} {a : α}
    (h : takeFirst p (x :: xs) = some (i, a, ys)) :
    (i = 0 ∧ x = some a ∧ p a = true ∧ ys = none :: xs) ∨
      ∃ j zs, i = j + 1 ∧ ys = x :: zs ∧ takeFirst p xs = some (j, a, zs) := by
  cases x with
  | none =>
    obtain ⟨⟨j, b, zs⟩, hb, heq⟩ := Option.map_eq_some_iff.mp h
    simp only [Prod.mk.injEq] at heq
    obtain ⟨rfl, rfl, rfl⟩ := heq
    exact .inr ⟨j, zs, rfl, rfl, hb⟩
  | some x =>
    simp only [takeFirst] at h
    split at h
    · rename_i hp
      simp only [Option.some.injEq, Prod.mk.injEq] at h
      obtain ⟨rfl, rfl, rfl⟩ := h
      exact .inl ⟨rfl, rfl, hp, rfl⟩
    · obtain ⟨⟨j, b, zs⟩, hb, heq⟩ := Option.map_eq_some_iff.mp h
      simp only [Prod.mk.injEq] at heq
      obtain ⟨rfl, rfl, rfl⟩ := heq
      exact .inr ⟨j, zs, rfl, rfl, hb⟩

theorem takeFirst_some {p : α → Bool} {xs ys : List (Option α)} {i : Nat} {a : α}
    (h : takeFirst p xs = some (i, a, ys)) :
    p a = true ∧ some a ∈ xs ∧ ∀ b, some b ∈ ys → some b ∈ xs := by
  induction xs generalizing i ys with
  | nil => exact absurd h (by simp [takeFirst])
  | cons x xs ih =>
    rcases takeFirst_cons h with ⟨_, rfl, hp, rfl⟩ | ⟨j, zs, _, rfl, hrest⟩
    · refine ⟨hp, List.mem_cons_self, ?_⟩
      intro y hy
      rcases List.mem_cons.mp hy with hy | hy
      · exact absurd hy (by simp)
      · exact List.mem_cons_of_mem _ hy
    · obtain ⟨hp, hmem, hall⟩ := ih hrest
      refine ⟨hp, List.mem_cons_of_mem _ hmem, ?_⟩
      intro y hy
      rcases List.mem_cons.mp hy with rfl | hy
      · exact List.mem_cons_self
      · exact List.mem_cons_of_mem _ (hall y hy)

/-- What is taken is due, and nothing else is scheduled afterwards. -/
theorem takeDue_some {time : α → Instant} {target : Instant} {client server ys : List (Option α)}
    {c : Bool} {i : Nat} {a : α} (h : takeDue time target client server = some (c, i, a, ys)) :
    time a = target ∧ some a ∈ (if c then client else server) ∧
      ∀ b, some b ∈ ys → some b ∈ (if c then client else server) := by
  unfold takeDue at h
  split at h
  · rename_i r hr
    obtain ⟨rfl, hr'⟩ := Prod.mk.inj (Option.some.inj h)
    subst hr'
    obtain ⟨hp, hmem, hall⟩ := takeFirst_some hr
    exact ⟨by simpa using hp, hmem, hall⟩
  · obtain ⟨r, hr, heq⟩ := Option.map_eq_some_iff.mp h
    obtain ⟨rfl, hr'⟩ := Prod.mk.inj heq
    subst hr'
    obtain ⟨hp, hmem, hall⟩ := takeFirst_some hr
    exact ⟨by simpa using hp, hmem, hall⟩

end Maybenot.Sim

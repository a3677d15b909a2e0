import Mathlib.Algebra.Order.Group.Multiset
import Maybenot.Proofs.Runs
import Maybenot.Sim.Parse

namespace Maybenot
open Lib

namespace EventQueue

/-- All events of a side. -/
def items (q : EventQueue) : Multiset SimEvent :=
  q.blocking.items + q.bypassable.items + q.internal.items + q.base.items

theorem mem_items {q : EventQueue} {e : SimEvent} : e ∈ q.items ↔ ∃ k, e ∈ (q.heap k).items := by
  simp only [items, Multiset.mem_add]
  constructor
  · rintro (((he | he) | he) | he)
    · exact ⟨.blocking, he⟩
    · exact ⟨.bypassable, he⟩
    · exact ⟨.internal, he⟩
    · exact ⟨.base, he⟩
  · rintro ⟨k, he⟩
    cases k <;> simp_all [heap]

theorem items_setHeap (q : EventQueue) (k : Queue) (h : BinaryHeap SimEvent) :
    (q.setHeap k h).items + (q.heap k).items = q.items + h.items := by
  cases k <;> simp only [items, setHeap, heap] <;> abel

theorem items_push (q : EventQueue) (e : SimEvent) : (q.push e).items = e ::ₘ q.items := by
  have h := q.items_setHeap e.home ((q.heap e.home).push e)
  rw [← push_eq, BinaryHeap.items_push, Multiset.add_cons, ← Multiset.cons_add] at h
  exact add_right_cancel h

theorem items_pop {q : EventQueue} {k : Queue} {e : SimEvent} (h : (q.heap k).peek = some e) :
    e ::ₘ (q.setHeap k (q.heap k).pop.2).items = q.items := by
  have hset := q.items_setHeap k (q.heap k).pop.2
  rw [BinaryHeap.items_pop h, Multiset.add_cons, ← Multiset.cons_add] at hset
  exact add_right_cancel hset

/-- The base packets that are still queued. -/
def normalSent (q : EventQueue) : Nat := q.base.items.countP (·.event = .normalSent)

/-- The packets that are queued to be sent through the tunnel. -/
def tunnelSent (q : EventQueue) (padding : Bool) : Nat :=
  (q.blocking.items + q.bypassable.items).countP
    fun e => e.event = .tunnelSent ∧ e.containsPadding = padding

/-- The packets that are queued to be received from the tunnel. -/
def tunnelRecv (q : EventQueue) (padding : Bool) : Nat :=
  q.internal.items.countP fun e => e.event = .tunnelRecv ∧ e.containsPadding = padding

def normalRecv (q : EventQueue) : Nat := q.internal.items.countP (·.event = .normalRecv)

end EventQueue

namespace SimQueue

/-- All events of both sides. -/
def items (sq : SimQueue) : Multiset SimEvent := sq.client.items + sq.server.items

theorem items_pushSim (sq : SimQueue) (e : SimEvent) : (sq.pushSim e).items = e ::ₘ sq.items := by
  unfold pushSim items
  cases e.client
  · change sq.client.items + (sq.server.push e).items = _
    rw [EventQueue.items_push, Multiset.add_cons]
  · change (sq.client.push e).items + sq.server.items = _
    rw [EventQueue.items_push, Multiset.cons_add]

theorem items_popped {sq : SimQueue} {k : Queue} {c : Bool} {e : SimEvent}
    (h : ((sq.side c).heap k).peek = some e) : e ::ₘ (sq.popped k c).items = sq.items := by
  have hpop := EventQueue.items_pop h
  cases c
  · change e ::ₘ (sq.client.items + (sq.server.setHeap k (sq.server.heap k).pop.2).items) = _
    rw [← Multiset.add_cons]
    exact congrArg (sq.client.items + ·) hpop
  · change e ::ₘ ((sq.client.setHeap k (sq.client.heap k).pop.2).items + sq.server.items) = _
    rw [← Multiset.cons_add]
    exact congrArg (· + sq.server.items) hpop

theorem items_foldl (es : List SimEvent) (sq : SimQueue) :
    (es.foldl pushSim sq).items = ↑es + sq.items := by
  induction es generalizing sq with
  | nil => simp
  | cons e es ih =>
    rw [List.foldl_cons, ih, items_pushSim, ← Multiset.cons_coe, Multiset.add_cons,
      Multiset.cons_add]

theorem mem_items {sq : SimQueue} {e : SimEvent} :
    e ∈ sq.items ↔ ∃ c k, e ∈ ((sq.side c).heap k).items := by
  simp only [items, Multiset.mem_add, EventQueue.mem_items, Bool.exists_bool]
  exact or_comm

/-- A queue with the packets of a trace and nothing else. -/
structure BaseTrace (sq : SimQueue) : Prop where
  built : sq.Built
  normal : ∀ c k, ∀ e ∈ ((sq.side c).heap k).items, e.event = .normalSent

theorem BaseTrace.new : SimQueue.new.BaseTrace where
  built := .new none
  normal c k e he := by cases c <;> cases k <;> simp [side, EventQueue.heap, SimQueue.new, EventQueue.new] at he

theorem BaseTrace.push {sq : SimQueue} (h : sq.BaseTrace) (isClient containsPadding : Bool)
    (time : Instant) (delay : Duration) :
    (sq.push .normalSent isClient containsPadding time delay).BaseTrace where
  built := .push _ h.built
  normal c k e he := by
    rcases mem_pushSim.mp he with ⟨rfl, _, _⟩ | he
    · rfl
    · exact h.normal c k e he

/-- The packets of a trace are all in the base queues. -/
theorem BaseTrace.mem_base {sq : SimQueue} (h : sq.BaseTrace) {e : SimEvent} (he : e ∈ sq.items) :
    ∃ c, e ∈ (sq.side c).base.items := by
  obtain ⟨c, k, hk⟩ := mem_items.mp he
  have hhome : k = .base :=
    (h.built.wellFormed c k e hk).1.symm.trans (by simp [SimEvent.home, h.normal c k e hk])
  subst hhome
  exact ⟨c, hk⟩

/-- The limit of packets a second is not part of how a queue is built. -/
theorem Built.limit {sq : SimQueue} (h : sq.Built) (m : Option Nat) :
    ({ sq with maxPps := m } : SimQueue).Built := by
  induction h with
  | new => exact .new m
  | @push sq e _ ih =>
    have hpush : ({ sq with maxPps := m } : SimQueue).pushSim e =
        { sq.pushSim e with maxPps := m } := by
      unfold pushSim
      cases e.client <;> rfl
    exact hpush ▸ .push e ih
  | @pop sq sq' k c delay e _ hpop ih =>
    apply @Built.pop _ _ k c delay e ih
    simp only [SimQueue.pop, bind_ok] at hpop ⊢
    obtain ⟨⟨e', q⟩, hq, hpop⟩ := hpop
    obtain ⟨rfl, rfl⟩ := Prod.mk.inj (pure_ok.mp hpop)
    exact ⟨(e', q), hq, by cases c <;> rfl⟩

/-- The queue of a parsed trace has the packets of the trace and nothing else. -/
theorem parseTraceAdvanced_base {G : Type} {trace : List Char} {network : Network}
    {client server : Option (Integration G)} {startingTime : Instant} {rng : G} {sq : SimQueue}
    (h : parseTraceAdvanced trace network client server startingTime rng = .ok sq) :
    sq.BaseTrace := by
  simp only [parseTraceAdvanced, bind_ok] at h
  obtain ⟨p, hp, h⟩ := h
  obtain rfl := pure_ok.mp h
  have hbase : p.sq.BaseTrace := by
    refine foldlM_keeps (P := fun p : Parsed G => p.sq.BaseTrace) ?_ BaseTrace.new hp
    intro p l _ p' hp hl
    unfold Parsed.line at hl
    split at hl
    · simp only [bind_ok] at hl
      obtain ⟨t, _, hl⟩ := hl
      split at hl
      · obtain rfl := pure_ok.mp hl
        exact BaseTrace.push hp true false (_ + _) (Parsed.draw client p.rng).1
      · split at hl
        · obtain rfl := pure_ok.mp hl
          exact BaseTrace.push hp false false (_ + _) (Parsed.draw server p.rng).1
        · split at hl
          · exact pure_ok.mp hl ▸ hp
          · exact absurd hl (by simp)
    · exact pure_ok.mp hl ▸ hp
  exact ⟨hbase.built.limit _, fun c k e he => hbase.normal c k e (by cases c <;> exact he)⟩

end SimQueue

namespace Config
open Sim

variable {R G : Type}

/-- The events that are on their way: the queued ones and the one that was picked. -/
def items : Config R G → Multiset SimEvent
  | .returned e w => e ::ₘ w.sq.items
  | .picking w | .done w => w.sq.items

/-- An event that is no packet. -/
def Idle (e : SimEvent) : Prop :=
  e.event ≠ .normalSent ∧ e.event ≠ .tunnelSent ∧ e.event ≠ .tunnelRecv ∧ e.event ≠ .normalRecv

/-- A normal packet of side `c` that has not come out at the other side. -/
def OnTheWay (c : Bool) (e : SimEvent) : Prop :=
  e.client = c ∧ e.event = .normalSent ∨
    e.client = c ∧ e.event = .tunnelSent ∧ e.containsPadding = false ∨
    e.client = !c ∧ e.event = .tunnelRecv ∧ e.containsPadding = false ∨
    e.client = !c ∧ e.event = .normalRecv

instance (c : Bool) : DecidablePred (OnTheWay c) := fun _ =>
  inferInstanceAs (Decidable (_ ∨ _ ∨ _ ∨ _))

/-- A padding packet of side `c` that is to be sent. -/
def PaddingOut (c : Bool) (e : SimEvent) : Prop :=
  e.client = c ∧ e.event = .tunnelSent ∧ e.containsPadding = true

instance (c : Bool) : DecidablePred (PaddingOut c) := fun _ =>
  inferInstanceAs (Decidable (_ ∧ _ ∧ _))

end Config

namespace Sim

variable {R G : Type}

/-- How many events with a property were processed. -/
def processed (w : Sim R G) (p : SimEvent → Bool) : Nat :=
  w.log.countP fun s => match s with
    | .processed e => p e
    | _ => false

/-- How often padding of a side was replaced. -/
def replaced (w : Sim R G) (c : Bool) : Nat := w.log.count (.replaced c)

theorem processed_note (w : Sim R G) (s : SimStep) (p : SimEvent → Bool) :
    (w.note s).processed p = w.processed p + match s with
      | .processed e => if p e then 1 else 0
      | _ => 0 := by
  unfold processed note
  rw [List.countP_append, List.countP_singleton]
  cases s <;> rfl

end Sim

namespace Config
open Sim

variable {R G : Type}

/-- A property of packets, which tells them by kind, side and padding flag. -/
structure OfPackets (P : SimEvent → Prop) : Prop where
  packet : ∀ e, P e → ¬ Idle e
  same : ∀ e e' : SimEvent, e'.event = e.event → e'.client = e.client →
    e'.containsPadding = e.containsPadding → (P e' ↔ P e)

theorem onTheWay_ofPackets (c : Bool) : OfPackets (OnTheWay c) where
  packet e he hidle := by
    obtain ⟨h1, h2, h3, h4⟩ := hidle
    rcases he with ⟨_, he⟩ | ⟨_, he, _⟩ | ⟨_, he, _⟩ | ⟨_, he⟩
    · exact h1 he
    · exact h2 he
    · exact h3 he
    · exact h4 he
  same e e' hev hcl hpad := by simp only [OnTheWay, hev, hcl, hpad]

theorem paddingOut_ofPackets (c : Bool) : OfPackets (PaddingOut c) where
  packet e he hidle := hidle.2.1 he.2.1
  same e e' hev hcl hpad := by simp only [PaddingOut, hev, hcl, hpad]

theorem OfPackets.idle {P : SimEvent → Prop} [DecidablePred P] (hP : OfPackets P) {e : SimEvent}
    (he : Idle e) (s : Multiset SimEvent) : (e ::ₘ s).countP P = s.countP P :=
  Multiset.countP_cons_of_neg _ fun h => hP.packet e h he

theorem OfPackets.congr {P : SimEvent → Prop} [DecidablePred P] (hP : OfPackets P)
    {e y : SimEvent} (hev : y.event = e.event) (hcl : y.client = e.client)
    (hpad : y.containsPadding = e.containsPadding) (s : Multiset SimEvent) :
    (y ::ₘ s).countP P = (e ::ₘ s).countP P := by
  simp only [Multiset.countP_cons, hP.same e y hev hcl hpad]

/-- An event that comes out of the queue is still the same packet. -/
theorem picked_same {e queued next : SimEvent} {k : Queue} {delay : Duration} {t : Instant}
    (hqueued : queued = e.moved k delay) (hnext : next = queued.forward t) :
    next.event = e.event ∧ next.client = e.client ∧ next.containsPadding = e.containsPadding := by
  subst hnext hqueued
  unfold SimEvent.forward SimEvent.moved
  split <;> split <;> exact ⟨rfl, rfl, rfl⟩

/-- What a round of picking has found. -/
def hand : Pick → Multiset SimEvent
  | .found (some e) => {e}
  | _ => 0

/-- Picking moves no packet. -/
theorem picks_items {P : SimEvent → Prop} [DecidablePred P] (hP : OfPackets P) {w w' : Sim R G}
    {p : Pick} (h : Picks w p w') : (hand p + w'.sq.items).countP P = w.sq.items.countP P := by
  have hpush {w' : Sim R G} {e : SimEvent} (hsq : w'.sq = w.sq) (he : Idle e) :
      (0 + (w'.pushSim e).sq.items).countP P = w.sq.items.countP P := by
    rw [zero_add, show (w'.pushSim e).sq = w.sq.pushSim e by rw [← hsq]; rfl,
      SimQueue.items_pushSim, hP.idle he]
  cases h with
  | nothing | delayed => exact congrArg (Multiset.countP P) (zero_add _)
  | expiredLater hq hb hle hn hd hpos =>
    exact hpush (setSide_sq ..) (by simp [blockingEnded, Idle])
  | @expiredNow _ _ _ c g next b hq hb hle hn hd hnext =>
    rw [hand, Multiset.singleton_add, hP.idle (by simp [hnext, blockingEnded, Idle])]
    exact congrArg (fun sq => sq.items.countP P) (setSide_sq ..)
  | queued hq hle hlt hhead hqueued hnext =>
    obtain ⟨hev, hcl, hpad⟩ := picked_same hqueued hnext
    rw [← SimQueue.items_popped hhead, hand, Multiset.singleton_add]
    exact hP.congr hev hcl hpad _
  | timer hq hi hle hlt hdue => exact hpush (setSide_sq ..) (by simp [Idle])
  | padding hq hs hlt hdue ha hd => exact hpush (setSide_sq ..) (by simp [Idle])
  | block hq hs hlt hdue ha hd hd' hx =>
    exact hpush (setSide_sq ..) (by simp [blockingBegun, Idle])

/-- What picking adds to the log: nothing is processed and nothing replaced. -/
theorem picks_appends {w w' : Sim R G} {p : Pick} (h : Picks w p w') :
    ∃ l, w'.log = w.log ++ l ∧ ∀ s ∈ l, (∀ e, s ≠ .processed e) ∧ ∀ c, s ≠ .replaced c := by
  cases h with
  | nothing | delayed => exact ⟨[], (List.append_nil _).symm, by simp⟩
  | @expiredLater _ _ _ c g b delay hq hb hle hn hd hpos =>
    exact ⟨[.expired c (w.currentTime + b)], congrArg (· ++ _) (setSide_log ..), by simp⟩
  | @expiredNow _ _ _ c g next b hq hb hle hn hd hnext =>
    exact ⟨[.expired c (w.currentTime + b), .picked next next],
      (congrArg (· ++ _ ++ _) (setSide_log ..)).trans (List.append_assoc ..), by simp⟩
  | @queued _ _ e queued next q hq hle hlt hhead hqueued hnext =>
    exact ⟨[.picked queued next], rfl, by simp⟩
  | timer hq hi hle hlt hdue =>
    exact ⟨[], (setSide_log ..).trans (List.append_nil _).symm, by simp⟩
  | padding hq hs hlt hdue ha hd =>
    exact ⟨[], (setSide_log ..).trans (List.append_nil _).symm, by simp⟩
  | block hq hs hlt hdue ha hd hd' hx =>
    exact ⟨[.blocked _ _ _ _ _], congrArg (· ++ _) (setSide_log ..), by simp⟩

/-- The events that were processed, in order. -/
def processedEvents (log : List SimStep) : List SimEvent :=
  log.filterMap fun
    | .processed e => some e
    | _ => none

theorem processedEvents_append (log l : List SimStep) :
    processedEvents (log ++ l) = processedEvents log ++ processedEvents l := List.filterMap_append

theorem picks_processedEvents {w w' : Sim R G} {p : Pick} (h : Picks w p w') :
    processedEvents w'.log = processedEvents w.log := by
  obtain ⟨l, hl, hls⟩ := picks_appends h
  have hnone : processedEvents l = [] := by
    refine List.filterMap_eq_nil_iff.mpr fun s hs => ?_
    cases s with
    | processed e => exact absurd rfl ((hls _ hs).1 e)
    | _ => rfl
  rw [hl, processedEvents_append, hnone, List.append_nil]

theorem picks_log {w w' : Sim R G} {p : Pick} (h : Picks w p w') :
    (∀ q, w'.processed q = w.processed q) ∧ ∀ c, w'.replaced c = w.replaced c := by
  obtain ⟨l, hl, hls⟩ := picks_appends h
  refine ⟨fun q => ?_, fun c => ?_⟩
  · rw [processed, hl, List.countP_append, processed, Nat.add_eq_left, List.countP_eq_zero]
    intro s hs
    cases s with
    | processed e => exact absurd rfl ((hls _ hs).1 e)
    | _ => simp
  · rw [replaced, hl, List.count_append, replaced, Nat.add_eq_left, List.count_eq_zero]
    exact fun hs => (hls _ hs).2 c rfl

/-- A normal packet that came out at side `c`. -/
def normalReceived (c : Bool) (e : SimEvent) : Bool := e.client == c && e.event == .normalRecv

/-- Padding that side `c` is to send, or a normal packet in its place. -/
def paddingSentBy (c : Bool) (e : SimEvent) : Bool :=
  e.client == c && match e.event with
    | .paddingSent _ => true
    | _ => false

theorem OfPackets.pushSim {P : SimEvent → Prop} [DecidablePred P] (w : Sim R G) (e : SimEvent) :
    (w.pushSim e).sq.items.countP P = (e ::ₘ w.sq.items).countP P :=
  congrArg (Multiset.countP P) (w.sq.items_pushSim e)

/-- The network moves a normal packet on, until it has come out. -/
theorem sends_onTheWay {w w' : Sim R G} {e : SimEvent} {a : Bool} (h : Sends w e a w') (c : Bool) :
    w'.sq.items.countP (OnTheWay c) + (if normalReceived (!c) e then 1 else 0) =
      (e ::ₘ w.sq.items).countP (OnTheWay c) := by
  have hpushed {e' : SimEvent} (hc : OnTheWay c e' ↔ OnTheWay c e)
      (hn : ¬ normalReceived (!c) e = true) (w : Sim R G) :
      (w.pushSim e').sq.items.countP (OnTheWay c) + (if normalReceived (!c) e then 1 else 0) =
        (e ::ₘ w.sq.items).countP (OnTheWay c) := by
    rw [OfPackets.pushSim, if_neg hn, add_zero]
    simp only [Multiset.countP_cons, hc]
  cases h with
  | normal he =>
    exact hpushed (by simp [OnTheWay, SimEvent.tunnelSent, he]) (by simp [normalReceived, he]) w
  | kept he hr hb hq =>
    have hn : ¬ OnTheWay c e := by simp [OnTheWay, he]
    rw [Multiset.countP_cons_of_neg _ hn]
    simp [normalReceived, he, note]
  | @swapped _ queued k _ he hr hb hq hn =>
    have hn : ¬ OnTheWay c e := by simp [OnTheWay, he]
    have hpop := SimQueue.items_popped (peekBlocking_ok hq.1).1
    rw [Multiset.countP_cons_of_neg _ hn, ← hpop]
    simp only [normalReceived, he, note, SimQueue.items_pushSim]
    simpa using (onTheWay_ofPackets c).congr (e := queued)
      (y := { queued with bypass := true, replace := false }) rfl rfl rfl _
  | padded he hq =>
    exact hpushed (by simp [OnTheWay, SimEvent.tunnelSent, he]) (by simp [normalReceived, he]) w
  | sent he =>
    obtain ⟨t, d, hsq⟩ := w.sendPacket_sq e
    rw [hsq]
    exact hpushed (by simp [OnTheWay, arrival, he]) (by simp [normalReceived, he]) w
  | received he =>
    refine hpushed ?_ (by simp [normalReceived, he]) w
    cases hpad : e.containsPadding <;> simp [OnTheWay, he, hpad]
  | apart he =>
    by_cases hn : normalReceived (!c) e = true
    · have hon : OnTheWay c e := .inr (.inr (.inr (by simpa [normalReceived] using hn)))
      rw [if_pos hn, Multiset.countP_cons_of_pos _ hon]
    · have hon : ¬ OnTheWay c e := by
        simpa [OnTheWay, normalReceived, he] using hn
      rw [if_neg hn, Multiset.countP_cons_of_neg _ hon, add_zero]

/-- Padding that is to be sent is queued, or replaced with a normal packet. -/
theorem sends_padding {w w' : Sim R G} {e : SimEvent} {a : Bool} (h : Sends w e a w') (c : Bool) :
    w'.sq.items.countP (PaddingOut c) + (if PaddingOut c e then 1 else 0) + w'.replaced c =
      (e ::ₘ w.sq.items).countP (PaddingOut c) + (if paddingSentBy c e then 1 else 0) +
        w.replaced c := by
  have hother {y : SimEvent} (hc : ¬ PaddingOut c y) (hn : ¬ paddingSentBy c e = true) {w' : Sim R G}
      (hsq : w'.sq.items = y ::ₘ w.sq.items) (hlog : w'.log = w.log) :
      w'.sq.items.countP (PaddingOut c) + (if PaddingOut c e then 1 else 0) + w'.replaced c =
        (e ::ₘ w.sq.items).countP (PaddingOut c) + (if paddingSentBy c e then 1 else 0) +
          w.replaced c := by
    rw [hsq, Multiset.countP_cons_of_neg _ hc, if_neg hn, Multiset.countP_cons, replaced, hlog,
      add_zero]
    rfl
  have hreplaced (hout : ¬ PaddingOut c e) (hn : paddingSentBy c e = true ↔ e.client = c)
      {w' : Sim R G} (hsq : w'.sq.items.countP (PaddingOut c) = w.sq.items.countP (PaddingOut c))
      (hlog : w'.log = w.log ++ [.replaced e.client]) :
      w'.sq.items.countP (PaddingOut c) + (if PaddingOut c e then 1 else 0) + w'.replaced c =
        (e ::ₘ w.sq.items).countP (PaddingOut c) + (if paddingSentBy c e then 1 else 0) +
          w.replaced c := by
    rw [hsq, if_neg hout, Multiset.countP_cons_of_neg _ hout, replaced, hlog, List.count_append,
      List.count_singleton, replaced]
    simp only [hn, beq_iff_eq, SimStep.replaced.injEq]
    omega
  cases h with
  | normal he =>
    exact hother (by simp [PaddingOut, SimEvent.tunnelSent]) (by simp [paddingSentBy, he])
      (SimQueue.items_pushSim _ _) rfl
  | kept he hr hb hq =>
    exact hreplaced (by simp [PaddingOut, he]) (by simp [paddingSentBy, he]) rfl rfl
  | @swapped _ queued k _ he hr hb hq hn =>
    refine hreplaced (by simp [PaddingOut, he]) (by simp [paddingSentBy, he]) ?_ rfl
    have hpop := SimQueue.items_popped (peekBlocking_ok hq.1).1
    rw [← hpop]
    apply (congrArg (Multiset.countP _) (SimQueue.items_pushSim _ _)).trans
    exact (paddingOut_ofPackets c).congr (e := queued)
      (y := { queued with bypass := true, replace := false }) rfl rfl rfl _
  | padded he hq =>
    have hout : ¬ PaddingOut c e := by simp [PaddingOut, he]
    rw [OfPackets.pushSim, if_neg hout, Multiset.countP_cons, Multiset.countP_cons_of_neg _ hout]
    simp [PaddingOut, paddingSentBy, SimEvent.tunnelSent, he, replaced, Sim.pushSim]
  | sent he =>
    obtain ⟨t, d, hsq⟩ := w.sendPacket_sq e
    exact hother (y := arrival e t d) (by simp [PaddingOut, arrival]) (by simp [paddingSentBy, he])
      (by rw [hsq, SimQueue.items_pushSim]) rfl
  | received he =>
    refine hother ?_ (by simp [paddingSentBy, he]) (SimQueue.items_pushSim _ _) rfl
    cases hpad : e.containsPadding <;> simp [PaddingOut]
  | apart he =>
    have hout : ¬ PaddingOut c e := by simp [PaddingOut, he]
    have hn : ¬ paddingSentBy c e = true := by
      cases hev : e.event <;> simp_all [paddingSentBy]
    rw [if_neg hout, if_neg hn, Multiset.countP_cons_of_neg _ hout]

theorem sends_processed {w w' : Sim R G} {e : SimEvent} {a : Bool} (h : Sends w e a w')
    (p : SimEvent → Bool) : w'.processed p = w.processed p := by
  cases h with
  | normal | padded | sent | received | apart => rfl
  | kept => exact processed_note ..
  | swapped => exact processed_note ..

/-- After the network, an iteration only pushes that timers begin, and the event counts as
processed. -/
theorem iterates_queue [RngCore R] {args : SimulatorArgs G} {w w' : Sim R G} {e : SimEvent}
    (h : Iterates args w e w') :
    ∃ a w1, Sends { w with currentTime := e.time } e a w1 ∧
      (∃ ms : List MachineId,
        w'.sq = (ms.map (timerBegun e.client e.time)).foldl SimQueue.pushSim w1.sq) ∧
      w'.log = w1.log ++ [.processed e] := by
  obtain ⟨_, a, w1, w2, hs, ht, n, rfl⟩ := h
  obtain ⟨_, _, w3, _, _, _, hsq, hrest, hacted⟩ := triggerUpdate_ok ht
  obtain ⟨ms, hms⟩ := hacted.queue
  have htime : w3.currentTime = e.time := by
    apply (congrArg (·.2.1) hrest).trans
    cases hs <;> rfl
  have hlog : w2.log = w1.log := congrArg (·.2.2.2.2) (hacted.rest.trans hrest)
  have hrecord : (w2.record args e a).sq = w2.sq ∧ (w2.record args e a).log = w2.log := by
    unfold record
    split <;> exact ⟨rfl, rfl⟩
  refine ⟨a, w1, hs, ⟨ms, ?_⟩, ?_⟩
  · change (w2.record args e a).sq = _
    rw [hrecord.1, hms, hsq, htime]
  · change (w2.record args e a).log ++ _ = _
    rw [hrecord.2, hlog]

theorem iterates_counts [RngCore R] {args : SimulatorArgs G} {w w' : Sim R G} {e : SimEvent}
    (h : Iterates args w e w') :
    ∃ a w1, Sends { w with currentTime := e.time } e a w1 ∧
      (∃ ms : List MachineId, w'.sq.items =
        ↑(ms.map (timerBegun e.client e.time)) + w1.sq.items) ∧
      w'.log = w1.log ++ [.processed e] := by
  obtain ⟨a, w1, hs, ⟨ms, hms⟩, hlog⟩ := iterates_queue h
  exact ⟨a, w1, hs, ⟨ms, by rw [hms, SimQueue.items_foldl]⟩, hlog⟩

theorem iterates_processedEvents [RngCore R] {args : SimulatorArgs G} {w w' : Sim R G}
    {e : SimEvent} (h : Iterates args w e w') :
    processedEvents w'.log = processedEvents w.log ++ [e] := by
  obtain ⟨a, w1, hs, _, hlog⟩ := iterates_counts h
  have hsends : processedEvents w1.log = processedEvents w.log := by
    cases hs with
    | normal | padded | sent | received | apart => rfl
    | kept => exact (processedEvents_append w.log _).trans (List.append_nil _)
    | swapped => exact (processedEvents_append w.log _).trans (List.append_nil _)
  rw [hlog, processedEvents_append, hsends]
  rfl

/-- An event that begins a timer is no packet. -/
theorem OfPackets.timers {P : SimEvent → Prop} [DecidablePred P] (hP : OfPackets P) (c : Bool)
    (t : Instant) (ms : List MachineId) (s : Multiset SimEvent) :
    (↑(ms.map (timerBegun c t)) + s).countP P = s.countP P := by
  rw [Multiset.countP_add, Nat.add_eq_right, Multiset.countP_eq_zero]
  intro y hy hpy
  obtain ⟨m, _, rfl⟩ := List.mem_map.mp (Multiset.mem_coe.mp hy)
  exact hP.packet _ hpy (by simp [timerBegun, Idle])

theorem processed_of_log {w w' : Sim R G} {e : SimEvent} (h : w'.log = w.log ++ [.processed e])
    (p : SimEvent → Bool) : w'.processed p = w.processed p + if p e then 1 else 0 := by
  unfold processed
  rw [h, List.countP_append, List.countP_singleton]

theorem replaced_of_log {w w' : Sim R G} {e : SimEvent} (h : w'.log = w.log ++ [.processed e])
    (c : Bool) : w'.replaced c = w.replaced c := by
  unfold replaced
  rw [h, List.count_append]
  rfl

/-- The books of the packets, where `n` normal packets were there at the start. -/
structure Books (n : Bool → Nat) (cfg : Config R G) : Prop where
  normal c : cfg.items.countP (OnTheWay c) + cfg.sim.processed (normalReceived !c) = n c
  padding c : cfg.sim.processed (paddingSentBy c) =
    cfg.items.countP (PaddingOut c) + cfg.sim.processed (fun e => decide (PaddingOut c e)) +
      cfg.sim.replaced c

theorem Books.picks {n : Bool → Nat} {w w' : Sim R G} {p : Pick} {cfg : Config R G}
    (h : Books n (.picking w)) (hp : Picks w p w') (hsim : cfg.sim = w')
    (hitems : cfg.items = hand p + w'.sq.items) : Books n cfg where
  normal c := by
    rw [hitems, hsim, picks_items (onTheWay_ofPackets c) hp, (picks_log hp).1]
    exact h.normal c
  padding c := by
    rw [hitems, hsim, picks_items (paddingOut_ofPackets c) hp, (picks_log hp).1, (picks_log hp).1,
      (picks_log hp).2]
    exact h.padding c

theorem Books.iterates [RngCore R] {args : SimulatorArgs G} {n : Bool → Nat} {w w' : Sim R G}
    {e : SimEvent} {cfg : Config R G} (h : Books n (.returned e w)) (hit : Iterates args w e w')
    (hsim : cfg.sim = w') (hitems : cfg.items = w'.sq.items) : Books n cfg := by
  obtain ⟨a, w1, hs, ⟨ms, hsq⟩, hlog⟩ := iterates_counts hit
  have hproc := processed_of_log hlog
  have hrep := replaced_of_log hlog
  refine ⟨fun c => ?_, fun c => ?_⟩
  · have hn := h.normal c
    have hw := sends_onTheWay hs c
    rw [hitems, hsim, hsq, (onTheWay_ofPackets c).timers, hproc, sends_processed hs]
    change (e ::ₘ w.sq.items).countP (OnTheWay c) + w.processed (normalReceived !c) = n c at hn
    change w1.sq.items.countP (OnTheWay c) + _ = (e ::ₘ w.sq.items).countP (OnTheWay c) at hw
    change _ + (w.processed (normalReceived !c) + _) = _
    omega
  · have hn := h.padding c
    have hw := sends_padding hs c
    rw [hitems, hsim, hsq, (paddingOut_ofPackets c).timers, hproc, hproc, hrep,
      sends_processed hs, sends_processed hs]
    change w.processed (paddingSentBy c) = (e ::ₘ w.sq.items).countP (PaddingOut c) +
      w.processed (fun e => decide (PaddingOut c e)) + w.replaced c at hn
    change w1.sq.items.countP (PaddingOut c) + _ + w1.replaced c =
      (e ::ₘ w.sq.items).countP (PaddingOut c) + _ + w.replaced c at hw
    change w.processed (paddingSentBy c) + _ =
      _ + (w.processed (fun e => decide (PaddingOut c e)) + _) + _
    simp only [decide_eq_true_eq]
    omega

theorem Books.steps [RngCore R] {args : SimulatorArgs G} {n : Bool → Nat} {cfg cfg' : Config R G}
    (h : Books n cfg) (hs : Steps args cfg cfg') : Books n cfg' := by
  cases hs with
  | again hp => exact h.picks hp rfl (zero_add _).symm
  | finished hp => exact h.picks hp rfl (zero_add _).symm
  | found hp => exact h.picks hp rfl (by rw [hand, Multiset.singleton_add]; rfl)
  | stay hit hstay => exact h.iterates hit rfl rfl
  | leave hit hleave => exact h.iterates hit rfl rfl
  | stopped => exact h

theorem countP_or {P Q : SimEvent → Prop} [DecidablePred P] [DecidablePred Q]
    (h : ∀ e, P e → ¬ Q e) (s : Multiset SimEvent) :
    s.countP (fun e => P e ∨ Q e) = s.countP P + s.countP Q := by
  induction s using Multiset.induction with
  | empty => rfl
  | cons e s ih =>
    simp only [Multiset.countP_cons, ih]
    have he := h e
    by_cases hp : P e <;> by_cases hq : Q e <;> simp_all <;> omega

theorem countP_none {P : SimEvent → Prop} [DecidablePred P] {s : Multiset SimEvent}
    (h : ∀ e ∈ s, ¬ P e) : s.countP P = 0 := Multiset.countP_eq_zero.mpr h

/-- Where the packets of side `c` are that are on their way. -/
theorem onTheWay_queues {sq : SimQueue} (h : sq.WellFormed) (c : Bool) :
    sq.items.countP (OnTheWay c) = (sq.side c).normalSent + (sq.side c).tunnelSent false +
      (sq.side !c).tunnelRecv false + (sq.side !c).normalRecv := by
  have hitems : sq.items = (sq.side c).items + (sq.side !c).items := by
    cases c
    · exact add_comm _ _
    · rfl
  have hown : (sq.side c).items.countP (OnTheWay c) =
      (sq.side c).normalSent + (sq.side c).tunnelSent false := by
    have hcl {k : Queue} {e : SimEvent} (he : e ∈ ((sq.side c).heap k).items) : e.client = c :=
      (h c k e he).2
    have hinternal : (sq.side c).internal.items.countP (OnTheWay c) = 0 := by
      refine countP_none fun e he => ?_
      obtain ⟨h1, h2⟩ := EventQueue.home_internal (h c .internal e he).1
      simp [OnTheWay, hcl (k := .internal) he, h1, h2]
    have htunnel : (sq.side c).tunnelSent false =
        ((sq.side c).blocking.items + (sq.side c).bypassable.items).countP (OnTheWay c) := by
      refine Multiset.countP_congr rfl fun e he => ?_
      have hev : e.event = .tunnelSent ∧ e.client = c := by
        rcases Multiset.mem_add.mp he with he | he
        · exact ⟨(EventQueue.home_blocking (h c .blocking e he).1).1, hcl (k := .blocking) he⟩
        · exact ⟨(EventQueue.home_bypassable (h c .bypassable e he).1).1, hcl (k := .bypassable) he⟩
      simp [OnTheWay, hev]
    have hbase : (sq.side c).normalSent = (sq.side c).base.items.countP (OnTheWay c) := by
      refine Multiset.countP_congr rfl fun e he => ?_
      simp [OnTheWay, hcl (k := .base) he, EventQueue.home_base (h c .base e he).1]
    rw [EventQueue.items, Multiset.countP_add, Multiset.countP_add, hinternal, ← htunnel, ← hbase]
    omega
  have hother : (sq.side !c).items.countP (OnTheWay c) =
      (sq.side !c).tunnelRecv false + (sq.side !c).normalRecv := by
    have hcl {k : Queue} {e : SimEvent} (he : e ∈ ((sq.side !c).heap k).items) : e.client = !c :=
      (h (!c) k e he).2
    have hinternal : (sq.side !c).internal.items.countP (OnTheWay c) =
        (sq.side !c).tunnelRecv false + (sq.side !c).normalRecv := by
      rw [EventQueue.tunnelRecv, EventQueue.normalRecv, ← countP_or (by simp_all)]
      refine Multiset.countP_congr rfl fun e he => ?_
      simp [OnTheWay, hcl (k := .internal) he]
    have htunnel : ((sq.side !c).blocking.items + (sq.side !c).bypassable.items).countP
        (OnTheWay c) = 0 := by
      refine countP_none fun e he => ?_
      have hev : e.event = .tunnelSent ∧ e.client = !c := by
        rcases Multiset.mem_add.mp he with he | he
        · exact ⟨(EventQueue.home_blocking (h _ .blocking e he).1).1, hcl (k := .blocking) he⟩
        · exact ⟨(EventQueue.home_bypassable (h _ .bypassable e he).1).1, hcl (k := .bypassable) he⟩
      simp [OnTheWay, hev]
    have hbase : (sq.side !c).base.items.countP (OnTheWay c) = 0 := by
      refine countP_none fun e he => ?_
      simp [OnTheWay, hcl (k := .base) he, EventQueue.home_base (h _ .base e he).1]
    rw [EventQueue.items, Multiset.countP_add, Multiset.countP_add, hinternal, htunnel, hbase]
    omega
  rw [hitems, Multiset.countP_add, hown, hother]
  omega

/-- Where the padding of side `c` is that is to be sent. -/
theorem paddingOut_queues {sq : SimQueue} (h : sq.WellFormed) (c : Bool) :
    sq.items.countP (PaddingOut c) = (sq.side c).tunnelSent true := by
  have hitems : sq.items = (sq.side c).items + (sq.side !c).items := by
    cases c
    · exact add_comm _ _
    · rfl
  have hother : (sq.side !c).items.countP (PaddingOut c) = 0 := by
    refine countP_none fun e he => ?_
    obtain ⟨k, hk⟩ := EventQueue.mem_items.mp he
    simp [PaddingOut, (h (!c) k e hk).2]
  have hinternal : (sq.side c).internal.items.countP (PaddingOut c) = 0 := by
    refine countP_none fun e he => ?_
    simp [PaddingOut, (EventQueue.home_internal (h c .internal e he).1).1]
  have hbase : (sq.side c).base.items.countP (PaddingOut c) = 0 := by
    refine countP_none fun e he => ?_
    simp [PaddingOut, EventQueue.home_base (h c .base e he).1]
  have htunnel : (sq.side c).tunnelSent true =
      ((sq.side c).blocking.items + (sq.side c).bypassable.items).countP (PaddingOut c) := by
    refine Multiset.countP_congr rfl fun e he => ?_
    have hcl : e.client = c := by
      rcases Multiset.mem_add.mp he with he | he
      · exact (h c .blocking e he).2
      · exact (h c .bypassable e he).2
    simp [PaddingOut, hcl]
  rw [hitems, Multiset.countP_add, hother, EventQueue.items, Multiset.countP_add,
    Multiset.countP_add, hinternal, hbase, htunnel]
  rfl

/-- At the start all normal packets are base packets. -/
theorem books_start {sq : SimQueue} (h : sq.BaseTrace) {w : Sim R G} (hsq : w.sq = sq)
    (hlog : w.log = []) : Books (fun c => (sq.side c).base.len) (.picking w) := by
  have hwf := h.built.wellFormed
  have hno {c : Bool} {k : Queue} {P : SimEvent → Prop} [DecidablePred P]
      (hP : ∀ e, P e → e.event ≠ .normalSent) : ((sq.side c).heap k).items.countP P = 0 :=
    countP_none fun e he hp => hP e hp (h.normal c k e he)
  refine ⟨fun c => ?_, fun c => ?_⟩
  · change w.sq.items.countP (OnTheWay c) + w.processed _ = _
    have hbase : (sq.side c).normalSent = (sq.side c).base.len := by
      rw [← BinaryHeap.card_items]
      exact Multiset.countP_eq_card.mpr fun e he => h.normal c .base e he
    have htunnel : (sq.side c).tunnelSent false = 0 := by
      rw [EventQueue.tunnelSent, Multiset.countP_add]
      have h1 := hno (c := c) (k := .blocking)
        (P := fun e => e.event = .tunnelSent ∧ e.containsPadding = false) (by simp_all)
      have h2 := hno (c := c) (k := .bypassable)
        (P := fun e => e.event = .tunnelSent ∧ e.containsPadding = false) (by simp_all)
      simp only [EventQueue.heap] at h1 h2
      rw [h1, h2]
    have hrecv : (sq.side !c).tunnelRecv false = 0 := hno (k := .internal) (by simp_all)
    have hnormal : (sq.side !c).normalRecv = 0 := hno (k := .internal) (by simp_all)
    rw [hsq, onTheWay_queues hwf, hbase, htunnel, hrecv, hnormal, processed, hlog]
    rfl
  · change w.processed _ = w.sq.items.countP (PaddingOut c) + w.processed _ + w.replaced c
    have htunnel : sq.items.countP (PaddingOut c) = 0 := by
      refine countP_none fun e he hp => ?_
      have hev : e.event = .normalSent := by
        rcases Multiset.mem_add.mp he with he | he
        · obtain ⟨k, hk⟩ := EventQueue.mem_items.mp he
          exact h.normal true k e hk
        · obtain ⟨k, hk⟩ := EventQueue.mem_items.mp he
          exact h.normal false k e hk
      exact absurd (hp.2.1.symm.trans hev) (by simp)
    rw [hsq, htunnel, processed, processed, replaced, hlog]
    rfl

/-- Every normal packet is in one place until it has come out at the other side, and all
padding is sent or replaced. -/
theorem packets_conserved [RngCore R] {args : SimulatorArgs G} {sq : SimQueue}
    (hsq : sq.BaseTrace) {w : Sim R G} (h : Reachable args sq (.picking w)) (c : Bool) :
    (w.sq.side c).normalSent + (w.sq.side c).tunnelSent false + (w.sq.side !c).tunnelRecv false +
        ((w.sq.side !c).normalRecv + w.processed (normalReceived !c)) = (sq.side c).base.len ∧
      w.processed (paddingSentBy c) =
        ((w.sq.side c).tunnelSent true + w.processed fun e => decide (PaddingOut c e)) +
          w.replaced c := by
  have hbooks : Books (fun c => (sq.side c).base.len) (.picking w : Config R G) := by
    refine h.invariant (P := Books fun c => (sq.side c).base.len) ?_
      fun _ _ hc hs => hc.steps (next_ok hs.2)
    rintro cfg ⟨_, _, _, _, _, w0, hstart, rfl⟩
    obtain ⟨_, _, _, _, hq, _, _, _, hlog⟩ := start_ok hstart
    exact books_start hsq hq hlog
  have hwf : w.sq.WellFormed := reachable_wellFormed h hsq.built.wellFormed
  have hnormal := hbooks.normal c
  have hpadding := hbooks.padding c
  change w.sq.items.countP (OnTheWay c) + w.processed _ = _ at hnormal
  change w.processed _ = w.sq.items.countP (PaddingOut c) + w.processed _ + w.replaced c at hpadding
  rw [onTheWay_queues hwf] at hnormal
  rw [paddingOut_queues hwf] at hpadding
  exact ⟨by omega, hpadding⟩

/-- One packet that the client sends. -/
def oneSent : SimQueue := SimQueue.new.push .normalSent true false 0 0

/-- Three packets that the client sends. -/
def threeSent : SimQueue :=
  (oneSent.push .normalSent true false 1000000 0).push .normalSent true false 50000000 0

/-- Settings of runs that go on when the packets of the trace are through. -/
def continuing : SimulatorArgs Unit := { (.new ⟨10, none⟩ 0 true : SimulatorArgs Unit) with
  continueAfterAllNormalPacketsProcessed := true }

/-- A machine that blocks for 10 ms when a packet is sent, and bypasses that with padding two times,
2 ms apart: the first may be replaced by a packet that is held. -/
def stallAndPad : Machine :=
  let constant (x : Rat) : Dist := ⟨.uniform (Flt.ofRat x) (Flt.ofRat x), ⟨0⟩, ⟨0⟩⟩
  .free [
    .new fun
      | .normalSent => certain 1
      | _ => [],
    { State.new (fun | .blockingBegin => certain 2 | _ => []) with
      action := some (.blockOutgoing true false (constant 0) (constant 10000) none) },
    { State.new (fun | .paddingSent => certain 3 | _ => []) with
      action := some (.sendPadding true true (constant 2000) none) },
    { State.new (fun _ => []) with
      action := some (.sendPadding true false (constant 2000) none) }]

/-- Two packets are through, one of them held and sent in place of padding, and one is still to
come; the second padding is queued. -/
theorem stalled_packets_conserved : ∃ w : Sim Unit Unit,
    Reachable continuing threeSent (.picking w) ∧
    ((w.sq.side true).normalSent, w.processed (normalReceived false)) = (1, 2) ∧
    (w.sq.side true).normalSent + (w.sq.side true).tunnelSent false +
      (w.sq.side false).tunnelRecv false +
        ((w.sq.side false).normalRecv + w.processed (normalReceived false)) = 3 ∧
    (w.processed (paddingSentBy true), (w.sq.side true).tunnelSent true, w.replaced true) =
      (2, 1, 1) ∧
    w.processed (paddingSentBy true) =
      ((w.sq.side true).tunnelSent true + w.processed fun e => decide (PaddingOut true e)) +
        w.replaced true := by
  have hrun : ((ranFor [stallAndPad] [] threeSent continuing 27).bind fun
        | (_, .picking w) => some (((w.sq.side true).normalSent,
            w.processed (normalReceived false)), (w.processed (paddingSentBy true),
              (w.sq.side true).tunnelSent true, w.replaced true))
        | _ => none) = some ((1, 2), (2, 1, 1)) := by decide +kernel
  obtain ⟨⟨w, cfg⟩, hran, hcfg⟩ := Option.bind_eq_some_iff.mp hrun
  obtain ⟨hbegins, hfrom, _⟩ := ranFor_some hran
  have hreach : Reachable continuing threeSent cfg := hfrom.reachable hbegins
  cases cfg with
  | picking w' =>
    have hlen : (threeSent.side true).base.len = 3 := by decide +kernel
    obtain ⟨hnormal, hpadding⟩ := Prod.mk.inj (Option.some.inj hcfg)
    obtain ⟨hpackets, hpads⟩ := packets_conserved (.push (.push (.push .new ..) ..) ..) hreach true
    exact ⟨w', hreach, hnormal, hpackets.trans hlen, hpadding, hpads⟩
  | returned e w' => exact absurd hcfg (by simp)
  | done w' => exact absurd hcfg (by simp)

end Config

end Maybenot

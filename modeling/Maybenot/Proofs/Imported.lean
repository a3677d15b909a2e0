import Maybenot.Proofs.ParserSafe
import Maybenot.Proofs.Safe
import Maybenot.Proofs.Batches
import Maybenot.Proofs.Unheard

namespace Maybenot
open Lib

/-- The actions that machines of version 1 had. -/
def Action.FromV1 : Action → Prop
  | .sendPadding .. | .blockOutgoing .. => True
  | .cancel .. | .updateTimer .. => False

/-- A state that version 1 could describe: no counters, no signals, and no more than its events. -/
structure State.FromV1 (s : State) : Prop extends State.Simple s where
  action : ∀ a, s.action = some a → a.FromV1
  events : ∀ event, event ∉ v1EventsIter → s.transitions.get event.toUsize = none

section Parsed

variable {buf : List UInt8} {n : Nat}

theorem parseAction_fromV1 {timeout duration limit : Option Dist} {block bypass replace : Bool}
    {action : Option Action}
    (h : parseAction timeout duration limit block bypass replace = .ok action) :
    ∀ a, action = some a → a.FromV1 := by
  rintro a rfl
  unfold parseAction at h
  split at h
  · split at h
    · split at h
      · exact absurd h (by simp)
      · obtain rfl := Option.some.inj (Except.ok.inj h)
        trivial
    · obtain rfl := Option.some.inj (Except.ok.inj h)
      trivial
  · exact absurd (Except.ok.inj h) (by simp)

/-- A row of the matrix is about its own event. -/
theorem parseTrans_apart {event other : Event} {acc acc' : Matrix} {i : Nat} (hne : other ≠ event)
    (h : parseTrans buf n event acc i = .ok acc') : acc'.2 other = acc.2 other := by
  obtain ⟨r, transitions⟩ := acc
  unfold parseTrans at h
  dsimp only at h
  split at h
  · split at h
    · cases h
      exact Function.update_of_ne hne _ _
    · split at h
      · cases h
      · cases h
        exact Function.update_of_ne hne _ _
  · cases h
    rfl

theorem new_apart {t : Event → List Trans} {event : Event} (h : t event = []) :
    (State.new t).transitions.get event.toUsize = none := by
  have hget : (State.new t).transitions.get event.toUsize =
      if (t event).isEmpty then none else some (t event) := by
    refine (Vector.getElem_map _ event.toUsize.isLt).trans ?_
    cases event <;> rfl
  rw [hget, h]
  rfl

theorem parseState_fromV1 {s : State} (hn : n ≤ stateMax) (h : parseState buf n = .ok s) :
    s.FromV1 := by
  have htargets := parseState_targets h
  unfold parseState at h
  simp only [check_ok, bind_ok, pure_ok] at h
  obtain ⟨_, _, _, _, _, _, _, action, haction, acc, hrows, rfl⟩ := h
  refine ⟨⟨rfl, fun vector hv t ht hsignal => ?_⟩, parseAction_fromV1 haction, fun event he => ?_⟩
  · have hlt : stateMax < stateSignal := by decide
    have hne : stateSignal ≠ stateEnd := by decide
    rcases htargets vector hv t ht with hstate | hstate <;> omega
  · have hempty : acc.2 event = [] := by
      refine foldlM_keeps (P := fun acc : Matrix => acc.2 event = []) ?_ rfl hrows
      intro acc other hother acc' hacc hrow
      refine foldlM_keeps (P := fun acc : Matrix => acc.2 event = []) ?_ hacc hrow
      intro acc i _ acc' hacc htrans
      have hne : event ≠ other := fun heq => he (heq ▸ hother)
      exact (parseTrans_apart hne htrans).trans hacc
    exact new_apart hempty

end Parsed

section Machines

variable {R : Type} [RngCore R]

theorem parseV1_fromV1 {buf : List UInt8} {m : Machine} (h : parseV1 R buf = .ok m) :
    m.validate R = .ok () ∧ ∀ st ∈ m.states, st.FromV1 := by
  unfold parseV1 at h
  simp only [check_ok, bind_ok] at h
  obtain ⟨_, _, acc, hstates, hnew⟩ := h
  obtain ⟨_, hvalid, hm⟩ := bind_ok.mp hnew
  cases pure_ok.mp hm
  refine ⟨hvalid, ?_⟩
  have hmax := Machine.validate_states hvalid
  have hn : acc.2.length = Bytes.decode (Bytes.slice buf 33 35) := (parseNexts_targets hstates).1
  have hle : Bytes.decode (Bytes.slice buf 33 35) ≤ stateMax := hn ▸ hmax
  refine foldlM_keeps (P := fun acc : Nat × List State => ∀ st ∈ acc.2, st.FromV1) ?_
    (fun st hst => absurd hst List.not_mem_nil) hstates
  intro acc _ _ acc' hacc hnext st hst
  obtain ⟨s, hs, hnext⟩ := bind_ok.mp hnext
  cases pure_ok.mp hnext
  rcases List.mem_append.mp hst with hst | hst
  · exact hacc st hst
  · exact List.mem_singleton.mp hst ▸ parseState_fromV1 hle hs

theorem parseV1Machine_fromV1 {lib : HexCodecs} {s : List Char} {m : Machine}
    (h : parseV1Machine R lib s = .ok m) :
    m.validate R = .ok () ∧ ∀ st ∈ m.states, st.FromV1 := by
  unfold parseV1Machine at h
  obtain ⟨compressed, _, h⟩ := bind_ok.mp h
  obtain ⟨buf, _, h⟩ := bind_ok.mp h
  simp only [check_ok] at h
  exact parseV1_fromV1 h.2.2

end Machines

/-- The actions that a framework of such machines asks for. -/
def TriggerAction.FromV1 : TriggerAction D → Prop
  | .sendPadding .. | .blockOutgoing .. => True
  | .cancel .. | .updateTimer .. => False

namespace Framework

variable {R T D : Type} [RngCore R] [Time.Duration D] [Time.Instant T D]

/-- No signal is pending, nothing was counted, and only old actions are asked for. -/
structure Old (ms : List Machine) (f : Framework R T D) : Prop where
  machines : f.machines = ms
  silent : f.signalPending = none
  counters : ∀ (mi : Nat) rt, f.runtime[mi]? = some rt → rt.counterA = 0 ∧ rt.counterB = 0
  slots : Holds (fun _ a => a.FromV1) f

omit [RngCore R] [Time.Duration D] [Time.Instant T D] in
theorem Old.same {ms : List Machine} {f g : Framework R T D} (h : Old ms f)
    (hmachines : g.machines = f.machines) (hsilent : g.signalPending = f.signalPending)
    (hruntime : g.runtime = f.runtime) (hactions : g.actions = f.actions) : Old ms g :=
  ⟨hmachines.trans h.machines, hsilent.trans h.silent, hruntime ▸ h.counters,
    fun mi a ha => h.slots mi a (hactions ▸ ha)⟩

omit [RngCore R] [Time.Duration D] [Time.Instant T D] in
theorem Old.setRuntime {ms : List Machine} {f : Framework R T D} (h : Old ms f) (mi : Nat)
    (rt : MachineRuntime T D) (hrt : rt.counterA = 0 ∧ rt.counterB = 0) :
    Old ms (f.setRuntime mi rt) := by
  refine ⟨h.machines, h.silent, fun j rt' hj => ?_, h.slots⟩
  change (f.runtime.set mi rt)[j]? = some rt' at hj
  rw [List.getElem?_set] at hj
  split at hj
  · split at hj
    · exact Option.some.inj hj ▸ hrt
    · exact absurd hj (by simp)
  · exact h.counters j rt' hj

omit [Time.Duration D] [Time.Instant T D] in
theorem Old.arrive {ms : List Machine} {f f1 : Framework R T D} {mi s limit : Nat} {event : Event}
    {rt : MachineRuntime T D} {cur st : State} (h : Old ms f) (hrt : f.runtime[mi]? = some rt)
    (hin : f1 = (f.sampleNext mi event cur).arrive mi s rt st limit) : Old ms f1 := by
  subst hin
  have hzero := h.counters mi rt hrt
  unfold Framework.arrive Framework.enterState
  split
  · exact h.same rfl rfl rfl rfl
  · split
    · exact (h.setRuntime mi { rt with currentState := s, stateLimit := stateLimitMax }
        hzero).same rfl rfl rfl rfl
    · rename_i a _
      let g := (f.sampleNext mi event cur).note (.sampled mi s)
      exact (h.setRuntime mi { rt with
        currentState := s, stateLimit := (a.sampleLimit g.rng).1 } hzero).same rfl rfl rfl rfl

omit [Time.Instant T D] in
theorem triggerAction_fromV1 (mi : Nat) {action : Action} (h : action.FromV1) (rng : R) :
    (triggerAction (D := D) mi action rng).1.FromV1 := by
  cases action with
  | sendPadding | blockOutgoing => trivial
  | cancel | updateTimer => exact h.elim

omit [Time.Instant T D] in
theorem Old.schedule {ms : List Machine} {f : Framework R T D} (h : Old ms f) (mi s limit : Nat)
    {st : State} (hst : st.FromV1) (allowed : Bool) :
    Old ms (f.schedule mi s limit st allowed) := by
  unfold Framework.schedule
  split
  · unfold placeAction
    split
    · exact ⟨h.machines, h.silent, h.counters, h.slots.set (by simp) rfl⟩
    · rename_i a ha
      refine ⟨h.machines, h.silent, h.counters, h.slots.set (fun b hb => ?_) rfl⟩
      exact Option.some.inj hb ▸ triggerAction_fromV1 mi (hst.action a ha) _
  · exact h

/-- No step of such a machine signals or counts, so no transition leads to another. -/
theorem Moves.old {ms : List Machine} (hms : ∀ m ∈ ms, ∀ st ∈ m.states, st.FromV1)
    {f f' : Framework R T D} {mi : Nat} {event : Event} {c : StateChange}
    (h : Moves f mi event c f') (hf : Old ms f) : Old ms f' := by
  have hstate {g : Framework R T D} (hg : g.machines = ms) {s : Nat} {st : State}
      (hst : StateOf g mi s st) : st.FromV1 := by
    obtain ⟨m, hm, hs⟩ := hst
    exact hms m (hg ▸ List.mem_of_getElem? hm) st (List.mem_of_getElem? hs)
  cases h with
  | ended hrt hend => exact hf.same rfl rfl rfl rfl
  | idle hrt hne hcur hs => exact hf.same rfl rfl rfl rfl
  | stop hrt hne hcur hs =>
    rename_i rt cur
    exact (hf.setRuntime mi { rt with currentState := stateEnd }
      (hf.counters mi rt hrt)).same rfl rfl rfl rfl
  | signal hrt hne hcur hs =>
    exact absurd hs ((hstate hf.machines hcur).toSimple.sample event f.rng)
  | enter hrt hne hcur hs hreal hst hin hrt' hm hbelow hz hlen =>
    have hentered := hf.arrive hrt hin
    have hfrom := hstate hf.machines hst
    rw [applyCounters_none hfrom.counter]
    exact (hentered.setRuntime mi _ (hentered.counters mi _ hrt')).schedule mi _ _ hfrom _
  | chain hrt hne hcur hs hreal hst hin hrt' hm hbelow hz hnest ha hafter =>
    rw [applyCounters_none (hstate hf.machines hst).counter] at hz
    exact absurd hz (by simp)

omit [RngCore R] in
theorem Old.recorded {ms : List Machine} {f : Framework R T D} (h : Old ms f) (e : TriggerEvent) :
    Old ms (f.recorded e) := by
  have hsame := recorded_apart (fun f : Framework R T D =>
    (f.machines, f.signalPending, f.runtime, f.actions)) (fun _ _ _ _ _ _ => rfl) f e
  simp only [Prod.mk.injEq] at hsame
  obtain ⟨hmachines, hsilent, hruntime, hactions⟩ := hsame
  exact h.same hmachines hsilent hruntime hactions

omit [RngCore R] [Time.Instant T D] in
theorem recorded_counters (rt : MachineRuntime T D) (e : TriggerEvent) (blocked : D) :
    (rt.recorded e blocked).counterA = rt.counterA ∧
      (rt.recorded e blocked).counterB = rt.counterB := by
  cases e with
  | blockingEnd =>
    simp only [MachineRuntime.recorded]
    split <;> exact ⟨rfl, rfl⟩
  | _ => exact ⟨rfl, rfl⟩

theorem Turn.old {ms : List Machine} (hms : ∀ m ∈ ms, ∀ st ∈ m.states, st.FromV1)
    {e : TriggerEvent} {blocked : D} {f f' : Framework R T D} {mi : Nat}
    (h : Turn e blocked f mi f') (hf : Old ms f) : Old ms f' := by
  have hcount {rt : MachineRuntime T D} (hrt : f.runtime[mi]? = some rt) :
      Old ms (f.setRuntime mi (rt.recorded e blocked)) := by
    obtain ⟨ha, hb⟩ := recorded_counters rt e blocked
    obtain ⟨hza, hzb⟩ := hf.counters mi rt hrt
    exact hf.setRuntime mi _ ⟨ha.trans hza, hb.trans hzb⟩
  have hless {g : Framework R T D} {rt : MachineRuntime T D} (hg : Old ms g)
      (hrt : g.runtime[mi]? = some rt) : Old ms (g.decremented mi rt) :=
    hg.setRuntime mi _ (hg.counters mi rt hrt)
  cases h with
  | apart hc => exact hf
  | moved hc hrt hm hrt' hkeep => exact hm.old hms (hcount hrt)
  | used hc hrt hl hm hrt' hne hst hu => exact hless (hm.old hms (hcount hrt)) hrt'
  | reached hc hrt hl hm hrt' hne hst hu hlen hm' =>
    have hg := hless (hm.old hms (hcount hrt)) hrt'
    exact hm'.old hms ⟨hg.machines, hg.silent, hg.counters, hg.slots.set (by simp) rfl⟩

theorem Old.call {ms : List Machine} (hms : ∀ m ∈ ms, ∀ st ∈ m.states, st.FromV1)
    {f f' : Framework R T D} (hf : Old ms f) {events : List TriggerEvent} {now : T}
    {actions : List (TriggerAction D)} (h : f.triggerEvents events now = .ok (actions, f')) :
    Old ms f' ∧ ∀ a ∈ actions, a.FromV1 := by
  have hend : Old ms f' := by
    refine triggerEvents_keeps (P := Old ms) (fun g e hg => hg.recorded e)
      (fun g e blocked mi g' hg ht => ht.old hms hg)
      (fun g hg => hg.same rfl hg.silent.symm rfl rfl)
      (fun g mi c g' hg hm => hm.old hms hg) ?_ h
    refine ⟨hf.machines, hf.silent, hf.counters, fun mi a ha => ?_⟩
    simp [startCall, -List.map_const'] at ha
  exact ⟨hend, fun a ha => hend.slots a.machine a (returned_slot h ha)⟩

theorem Old.run {ms : List Machine} (hms : ∀ m ∈ ms, ∀ st ∈ m.states, st.FromV1)
    {f f' : Framework R T D} (hf : Old ms f) {calls : List (List TriggerEvent × T)}
    {actions : List (List (TriggerAction D))} (h : f.run calls = .ok (actions, f')) :
    Old ms f' ∧ ∀ as ∈ actions, ∀ a ∈ as, a.FromV1 := by
  induction calls generalizing f actions with
  | nil =>
    obtain ⟨rfl, rfl⟩ := Prod.mk.inj (pure_ok.mp h)
    exact ⟨hf, by simp⟩
  | cons c cs ih =>
    obtain ⟨⟨as, g⟩, hcall, h⟩ := bind_ok.mp h
    obtain ⟨⟨rest, g'⟩, hrun, h⟩ := bind_ok.mp h
    obtain ⟨rfl, rfl⟩ := Prod.mk.inj (pure_ok.mp h)
    obtain ⟨hg, has⟩ := hf.call hms hcall
    obtain ⟨hend, hrest⟩ := ih hg hrun
    refine ⟨hend, fun as' hmem => ?_⟩
    rcases List.mem_cons.mp hmem with rfl | hmem
    · exact has
    · exact hrest as' hmem

end Framework

/-- Whether version 1 could report the event, or a timer begins: then a limit may be used up. -/
def TriggerEvent.inV1 : TriggerEvent → Bool
  | .tunnelRecv | .tunnelSent | .timerEnd _ => false
  | _ => true

theorem unheard_of_v1 {ms : List Machine} (hms : ∀ m ∈ ms, ∀ st ∈ m.states, st.FromV1)
    {e : TriggerEvent} (he : e.inV1 = false) : e.unheard ms = true := by
  have hnone : e.event ∉ v1EventsIter ∧ e.uncounted = true := by
    cases e with
    | tunnelRecv | tunnelSent | timerEnd _ =>
      exact ⟨by simp [TriggerEvent.event, v1EventsIter], rfl⟩
    | _ => cases he
  refine Bool.and_eq_true_iff.mpr ⟨hnone.2, ?_⟩
  refine List.all_eq_true.mpr fun m hm => List.all_eq_true.mpr fun st hst => ?_
  rw [(hms m hm st hst).events e.event hnone.1]
  rfl

theorem new_old {R T D : Type} [RngCore R] [Time.Duration D] [Time.Instant T D]
    {ms : List Machine} {padding blocking : F64} {now : T} {rng : R} {f : Framework R T D}
    (h : Framework.new ms padding blocking now rng = .ok (.ok f)) : f.Old ms := by
  obtain ⟨_, _, _, started, hstarted, rfl⟩ := Framework.new_ok.mp h
  have hmap := Framework.startLimit_map hstarted
    (g := fun rt => (rt.counterA, rt.counterB)) fun _ _ => rfl
  refine ⟨rfl, rfl, fun mi rt hrt => ?_, fun mi a ha => ?_⟩
  · have hmem := List.mem_map_of_mem (f := fun rt => (rt.counterA, rt.counterB))
      (List.mem_of_getElem? hrt)
    change _ ∈ started.1.map _ at hmem
    rw [hmap, List.map_nil, List.nil_append] at hmem
    obtain ⟨p, hp, hcounts⟩ := List.mem_map.mp hmem
    obtain ⟨m, _, hm⟩ := List.mem_map.mp (List.of_mem_zip hp).1
    rw [← hm] at hcounts
    obtain ⟨ha, hb⟩ := Prod.mk.inj hcounts
    exact ⟨ha.symm, hb.symm⟩
  · have hnone := List.mem_of_getElem? ha
    exact absurd (List.eq_of_mem_replicate hnone) (by simp)

/-- Machines that come from texts of version 1, whatever the crates make of those, need nothing that
is newer: no session fails, padding and blocking is all that is asked for, nothing is signalled or
counted, and the events that version 1 did not have may be left out of all batches. -/
theorem v1_machines_run {R T D : Type} [RngCore R] [Time.Duration D] [Time.Instant T D]
    {ms : List Machine} (hms : ∀ m ∈ ms, ∃ lib s, parseV1Machine R lib s = .ok m)
    {padding blocking : F64} (hpadding : Framework.isFraction padding = true)
    (hblocking : Framework.isFraction blocking = true) (now : T) (rng : R) :
    ∃ f : Framework R T D, Framework.new ms padding blocking now rng = .ok (.ok f) ∧
      ∀ calls : List (List TriggerEvent × T), ∃ actions g l,
        f.run calls = .ok (actions, g) ∧
        (∀ as ∈ actions, ∀ a ∈ as, a.FromV1) ∧ g.signalPending = none ∧
        (∀ rt ∈ g.runtime, rt.counterA = 0 ∧ rt.counterB = 0) ∧
        f.run (calls.map fun c => (c.1.filter TriggerEvent.inV1, c.2)) =
          .ok (actions, { g with log := l }) := by
  have hfrom : ∀ m ∈ ms, m.validate R = .ok () ∧ ∀ st ∈ m.states, st.FromV1 := by
    intro m hm
    obtain ⟨lib, s, hparse⟩ := hms m hm
    exact parseV1Machine_fromV1 hparse
  have hstates := fun m hm => (hfrom m hm).2
  obtain ⟨f, hnew⟩ := Framework.new_total (T := T) (D := D) hpadding hblocking
    (fun m hm => (hfrom m hm).1) now rng
  have hreach : f.Reachable := .start ⟨ms, padding, blocking, now, rng, hnew⟩
  have hmachines : f.machines = ms := (Framework.new_wellFormed hnew).2.2
  refine ⟨f, hnew, fun calls => ?_⟩
  obtain ⟨actions, g, l, hrun, hdropped⟩ := Framework.run_dropped
    (fun e he => unheard_of_v1 hstates he) hreach hmachines calls
  obtain ⟨hold, hactions⟩ := (new_old hnew).run hstates hrun
  exact ⟨actions, g, l, hrun, hactions, hold.silent, fun rt hrt =>
    (List.getElem?_of_mem hrt).elim fun mi hmi => hold.counters mi rt hmi, hdropped⟩

/-- The text of a machine that pads when packets are sent or received. -/
def paddingHex : List Char :=
  ("789cd5cfbb0900200c04d08b833886adb889389f5bb9801be811acb58ae2837ce02010c158" ++
    "b070555c9538b6377a64dbb0ceff242c20b79038507dd169fbede9f629bf6f021efa1b66").toList

/-- What the text stands for. -/
def paddingCompressed : List UInt8 :=
  [120, 156, 213, 207, 187, 9, 0, 32, 12, 4, 208, 139, 131, 56, 134, 173, 184, 137, 56, 159, 91,
    185, 128, 27, 232, 17, 172, 181, 138, 226, 131, 124, 224, 32, 16, 193, 88, 176, 112, 85, 92,
    149, 56, 182, 55, 122, 100, 219, 176, 206, 255, 36, 44, 32, 183, 144, 56, 80, 125, 209, 105,
    251, 237, 233, 246, 41, 191, 111, 2, 30, 250, 27, 102]

/-- What that is when it is inflated: a header and two states. -/
def paddingBytes : List UInt8 :=
  [1, 0] ++ List.replicate 8 255 ++ List.replicate 8 0 ++ List.replicate 8 255 ++
    List.replicate 8 0 ++ [1, 2] ++ List.replicate 121 0 ++ [240, 63] ++ List.replicate 30 0 ++
    [240, 63] ++ List.replicate 30 0 ++ [240, 63] ++ List.replicate 30 0 ++ [240, 63] ++
    List.replicate 212 0 ++ [1] ++ List.replicate 5 0 ++ [96, 227, 54, 65] ++
    List.replicate 4 0 ++ [172, 30, 98, 65] ++ List.replicate 6 0 ++ [240, 63] ++
    List.replicate 90 0 ++ [240, 63] ++ List.replicate 30 0 ++ [240, 63] ++ List.replicate 144 0

/-- The crates on that text. -/
def paddingHexCodecs : HexCodecs where
  decode s := if s = paddingHex then .ok paddingCompressed else .error "Odd number of digits"
  readToEnd bytes :=
    if bytes = paddingCompressed then .ok paddingBytes else .error "corrupt stream"

/-- A generator that draws the least value of every range. -/
structure Least where

instance : RngCore Least where
  genUnit r := ((RngCore.genUnit ()).1, r)
  construct _ := .ok ()
  sample d r := match d with
    | .uniform low _ => (low, r)
    | _ => (Flt.ofRat 0, r)

/-- It is read, and pads with events that it does not have and without them. -/
theorem padding_text_runs : ∃ (m : Machine) (f : Framework Least Instant Duration),
    parseV1Machine Least paddingHexCodecs paddingHex = .ok m ∧
    Framework.new [m] ⟨0⟩ ⟨0⟩ (0 : Instant) Least.mk = .ok (.ok f) ∧ ∃ g l,
      f.run [([.normalSent, .tunnelSent], 0), ([.tunnelRecv], 5), ([.paddingSent 0], 9)] =
        .ok ([[.sendPadding 1500001000 false false 0], [],
          [.sendPadding 1500001000 false false 0]], g) ∧
      f.run [([.normalSent], 0), ([], 5), ([.paddingSent 0], 9)] =
        .ok ([[.sendPadding 1500001000 false false 0], [],
          [.sendPadding 1500001000 false false 0]], { g with log := l }) := by
  have hrun : ((parseV1Machine Least paddingHexCodecs paddingHex).toOption.bind fun m =>
      (Framework.new [m] ⟨0⟩ ⟨0⟩ (0 : Instant) Least.mk).toOption.bind fun made =>
        made.toOption.bind fun f => (f.run [([.normalSent, .tunnelSent], 0), ([.tunnelRecv], 5),
          ([.paddingSent 0], 9)]).toOption.map (·.1)) =
      some [[.sendPadding 1500001000 false false 0], [],
        [.sendPadding (1500001000 : Duration) false false 0]] := by decide +kernel
  simp only [Option.bind_eq_some_iff, Option.map_eq_some_iff, toOption_eq_some] at hrun
  obtain ⟨m, hok, _, hnew', f', rfl, ⟨_, g'⟩, hrun', rfl⟩ := hrun
  have hms : ∀ m' ∈ [m], ∃ lib s, parseV1Machine Least lib s = .ok m' := by
    intro m' hm'
    exact ⟨_, _, List.mem_singleton.mp hm' ▸ hok⟩
  obtain ⟨f, hnew, hruns⟩ := v1_machines_run (T := Instant) (D := Duration) hms
    (show Framework.isFraction ⟨0⟩ = true by decide +kernel)
    (show Framework.isFraction ⟨0⟩ = true by decide +kernel) 0 Least.mk
  obtain rfl : f' = f := Except.ok.inj (Except.ok.inj (hnew'.symm.trans hnew))
  obtain ⟨actions, g, l, hrun, -, -, -, hdropped⟩ := hruns
    [([.normalSent, .tunnelSent], 0), ([.tunnelRecv], 5), ([.paddingSent 0], 9)]
  obtain ⟨rfl, _⟩ := Prod.mk.inj (Except.ok.inj (hrun'.symm.trans hrun))
  exact ⟨m, f', hok, hnew, g, l, hrun, hdropped⟩

end Maybenot

import Maybenot.Proofs.Serialized
import Maybenot.Proofs.Written

namespace Maybenot
open Lib

/-- The characters that the `base64` crate writes are those of its alphabet. -/
def Codecs.Prints (lib : Codecs) (m : Machine) : Prop :=
  ∀ c ∈ lib.base64 (lib.compress (lib.bincode m)), c.isAlphanum = true ∨ c ∈ ['+', '/', '=']

/-- Texts in lines, without an end of the last one. -/
def joined (texts : List (List Char)) : List Char := ['\n'].intercalate texts

section Text

/-- A character of an ASCII text without a null. -/
def IsPlain (c : Char) : Prop := 0 < c.val.toNat ∧ c.val.toNat ≤ 127

/-- The alphabet of the `base64` crate is plain and has no ends of lines. -/
theorem plain_of_base64 {c : Char} (h : c.isAlphanum = true ∨ c ∈ ['+', '/', '=']) :
    IsPlain c ∧ c ≠ '\n' ∧ c ≠ '\r' := by
  have hrange : 43 ≤ c.val.toNat ∧ c.val.toNat ≤ 122 := by
    rcases h with h | h
    · change (decide (65 ≤ c.val ∧ c.val ≤ 90) ||
        (decide (97 ≤ c.val) && decide (c.val ≤ 122)) ||
        (decide (48 ≤ c.val) && decide (c.val ≤ 57))) = true at h
      simp only [Bool.or_eq_true, Bool.and_eq_true, decide_eq_true_eq,
        UInt32.le_iff_toNat_le] at h
      rcases h with (⟨hge, hle⟩ | ⟨hge, hle⟩) | ⟨hge, hle⟩
      · exact ⟨(by decide : 43 ≤ 65).trans hge, hle.trans (by decide : 90 ≤ 122)⟩
      · exact ⟨(by decide : 43 ≤ 97).trans hge, hle⟩
      · exact ⟨(by decide : 43 ≤ 48).trans hge, hle.trans (by decide : 57 ≤ 122)⟩
    · simp only [List.mem_cons, List.not_mem_nil, or_false] at h
      rcases h with rfl | rfl | rfl <;> decide
  refine ⟨⟨by omega, by omega⟩, ?_, ?_⟩
  all_goals
    rintro rfl
    exact absurd hrange.1 (by decide)

theorem IsPlain.encoded {c : Char} (h : IsPlain c) :
    ∀ b ∈ String.utf8EncodeChar c, decide (b ≠ 0) = true := by
  intro b hb
  have hone : String.utf8EncodeChar c = [UInt8.ofNat c.val.toNat] := if_pos h.2
  rw [hone, List.mem_singleton] at hb
  have hpos : b.toNat ≠ 0 := by
    rw [hb, UInt8.toNat_ofNat']
    have := h.1
    have := h.2
    omega
  exact decide_eq_true fun hzero => hpos (congrArg UInt8.toNat hzero)

/-- A plain text is what its C string says, whatever follows the null. -/
theorem cStrText_of {text : List Char} (h : ∀ c ∈ text, IsPlain c) (rest : List UInt8) :
    cStrText (text.flatMap String.utf8EncodeChar ++ 0 :: rest) = some text := by
  have hbytes : ∀ b ∈ text.flatMap String.utf8EncodeChar, decide (b ≠ 0) = true := by
    intro b hb
    obtain ⟨c, hc, hb⟩ := List.mem_flatMap.mp hb
    exact (h c hc).encoded b hb
  have hstop : (0 :: rest).takeWhile (fun b => decide (b ≠ 0)) = [] := rfl
  have hvalid : ((text.flatMap String.utf8EncodeChar).toByteArray).IsValidUTF8 := ⟨text, rfl⟩
  unfold cStrText String.fromUTF8?
  rw [List.takeWhile_append_of_pos hbytes, hstop, List.append_nil, dif_pos hvalid]
  have hsame : String.fromUTF8 _ hvalid = String.ofList text := by
    rw [← String.toByteArray_inj, String.toByteArray_ofList]
    rfl
  rw [hsame, Option.map_some, String.toList_ofList]

theorem lines_joined {texts : List (List Char)} (hne : ∀ t ∈ texts, t ≠ [])
    (hline : ∀ t ∈ texts, '\n' ∉ t ∧ '\r' ∉ t) : lines (joined texts) = texts := by
  rcases List.eq_nil_or_concat texts with rfl | ⟨ts, last, rfl⟩
  · rfl
  have hsplit : (joined (ts.concat last)).splitOn '\n' = ts.concat last :=
    List.splitOn_intercalate '\n' (fun t ht => (hline t ht).1) (by simp)
  rw [List.concat_eq_append] at hsplit hne hline ⊢
  have hreturn : ∀ t ∈ ts, stripReturn t = t := by
    intro t ht
    refine if_neg fun hend => ?_
    exact (hline t (List.mem_append_left _ ht)).2 (List.mem_of_getLast? hend)
  have hlast : last.isEmpty = false := by
    rw [List.isEmpty_eq_false_iff]
    exact hne last (by simp)
  unfold lines
  rw [hsplit]
  simp [List.map_congr_left hreturn, hlast]

theorem mem_joined {texts : List (List Char)} {c : Char} (h : c ∈ joined texts) :
    c = '\n' ∨ ∃ t ∈ texts, c ∈ t := by
  induction texts with
  | nil => exact absurd h List.not_mem_nil
  | cons t ts ih =>
    cases ts with
    | nil => exact .inr ⟨t, List.mem_cons_self, by simpa [joined] using h⟩
    | cons t' ts =>
      unfold joined at h
      rw [List.intercalate_cons_cons, List.append_assoc] at h
      rcases List.mem_append.mp h with hc | hc
      · exact .inr ⟨t, List.mem_cons_self, hc⟩
      rcases List.mem_append.mp hc with hc | hc
      · exact .inl (List.mem_singleton.mp hc)
      · refine (ih hc).imp id fun ⟨u, hu, hc⟩ => ⟨u, List.mem_cons_of_mem _ hu, hc⟩

end Text

namespace Machine

variable {R : Type} [RngCore R]

/-- What a caller relies on to hand over a machine as text: the crates keep it, a decoder gives all
of it at once, and it is valid. -/
structure Portable (R : Type) [RngCore R] (lib : Codecs) (m : Machine) : Prop where
  keeps : lib.Keeps m
  whole : lib.ReadsAtOnce m
  prints : lib.Prints m
  valid : m.validate R = .ok ()

/-- The text of a machine is one line, and the machine is read back from it. -/
theorem Portable.text {lib : Codecs} {m : Machine} (h : Portable R lib m) {text : List Char}
    (htext : m.serialize lib = some text) :
    fromStr R lib text = .ok m ∧ text ≠ [] ∧
      (∀ c ∈ text, IsPlain c ∧ c ≠ '\n' ∧ c ≠ '\r') := by
  obtain ⟨hlib, hwhole, hprints, hvalid⟩ := h
  unfold serialize at htext
  dsimp only at htext
  split at htext
  · obtain rfl := Option.some.inj htext
    have hne : lib.base64 (lib.compress (lib.bincode m)) ≠ [] := by
      intro hnil
      have hlen := hlib.length
      have hpos := List.length_pos_of_ne_nil hlib.header
      rw [hnil, List.length_nil] at hlen
      omega
    refine ⟨?_, List.cons_ne_nil _ _, ?_⟩
    · rw [fromStr_text hlib.ascii hne hlib.base64]
      unfold Codecs.ReadsAtOnce at hwhole
      rw [hwhole]
      change (crateError (lib.unbincode maxDecompressedSize (lib.bincode m)) >>= fun m => do
        m.validate R
        return m) = .ok m
      rw [hlib.bincode]
      change (m.validate R >>= fun _ => pure m) = Except.ok m
      rw [hvalid]
      rfl
    · intro c hc
      rcases List.mem_append.mp hc with hc | hc
      · rcases List.mem_pair.mp hc with rfl | rfl <;> exact plain_of_base64 (.inl rfl)
      · exact plain_of_base64 (hprints c hc)
  · exact absurd htext (by simp)

/-- The texts of some machines are read back one by one. -/
theorem Portable.texts {lib : Codecs} {ms : List Machine} {texts : List (List Char)}
    (hms : ∀ m ∈ ms, Portable R lib m) (htexts : ms.mapM (serialize lib) = some texts) :
    texts.mapM (fromStr R lib) = .ok ms ∧
      ∀ t ∈ texts, t ≠ [] ∧ ∀ c ∈ t, IsPlain c ∧ c ≠ '\n' ∧ c ≠ '\r' := by
  induction ms generalizing texts with
  | nil =>
    obtain rfl := Option.some.inj htexts
    exact ⟨rfl, fun t ht => absurd ht List.not_mem_nil⟩
  | cons m ms ih =>
    rw [List.mapM_cons] at htexts
    obtain ⟨text, htext, htexts⟩ := Option.bind_eq_some_iff.mp htexts
    obtain ⟨more, hmore, htexts⟩ := Option.bind_eq_some_iff.mp htexts
    obtain rfl := Option.some.inj htexts
    obtain ⟨hread, hne, hplain⟩ := (hms m List.mem_cons_self).text htext
    obtain ⟨hreads, hrest⟩ := ih (fun m' hm' => hms m' (List.mem_cons_of_mem _ hm')) hmore
    refine ⟨?_, ?_⟩
    · rw [List.mapM_cons, hread, ok_bind, hreads, ok_bind]
      rfl
    · intro t ht
      rcases List.mem_cons.mp ht with rfl | ht
      · exact ⟨hne, hplain⟩
      · exact hrest t ht

end Machine

/-- One call of a caller: what happened when, and the memory for the answer. -/
structure Call where
  now : Instant
  events : List MaybenotEvent
  actionsOut : List (Option MaybenotAction)
  numActionsOut : Option Nat

/-- The answer to a call: all actions, written to the front of the memory, and their number. -/
def Call.answer (call : Call) (actions : List (TriggerAction Duration)) :
    MaybenotResult × Output :=
  (.ok, ⟨some ((actions.map convertAction).map some ++ call.actionsOut.drop actions.length),
    some (some actions.length)⟩)

section Session

variable {R : Type} [RngCore R]

/-- A caller's calls of an instance, one after the other. -/
def session (this : Option (MaybenotFramework R)) :
    List Call → Exec (List (MaybenotResult × Output) × Option (MaybenotFramework R))
  | [] => pure ([], this)
  | call :: calls => do
    let (result, out, this) ← maybenotOnEvents this call.now (some call.events)
      ⟨some call.actionsOut, some call.numActionsOut⟩
    let (rest, this) ← session this calls
    return ((result, out) :: rest, this)

/-- A session of an instance is one of its framework: each call gets all that the framework
returns. -/
theorem session_run {this : MaybenotFramework R} (h : this.Running) {calls : List Call}
    (hroom : ∀ call ∈ calls, maybenotNumMachines (some this) ≤ call.actionsOut.length) :
    ∃ actions f' buf, this.framework.run (calls.map fun call =>
        (call.events.map convertEvent, call.now)) = .ok (actions, f') ∧
      session (some this) calls =
        .ok (List.zipWith Call.answer calls actions, some ⟨f', buf⟩) := by
  induction calls generalizing this with
  | nil => exact ⟨[], this.framework, this.eventsBuf, rfl, rfl⟩
  | cons call calls ih =>
    obtain ⟨actions, f1, hcall, hout⟩ := maybenotOnEvents_complete h call.now call.events
      call.numActionsOut (hroom call List.mem_cons_self)
    have hnext : MaybenotFramework.Running ⟨f1, call.events.map convertEvent⟩ := by
      obtain ⟨_, _, hcall', _, hevents⟩ := MaybenotFramework.onEvents_complete h.reachable call.now
        call.events (hroom call List.mem_cons_self)
      obtain ⟨rfl, rfl⟩ := Prod.mk.inj (Except.ok.inj (hcall.symm.trans hcall'))
      exact .next h ⟨_, _, _, _, hevents⟩
    have hshape := (Framework.shape_eq (Framework.triggerEvents_shape hcall)).1
    have hroom' : ∀ call ∈ calls, maybenotNumMachines
        (some (⟨f1, call.events.map convertEvent⟩ : MaybenotFramework R)) ≤
          call.actionsOut.length := by
      intro c hc
      change f1.machines.length ≤ _
      rw [hshape]
      exact hroom c (List.mem_cons_of_mem _ hc)
    obtain ⟨rest, f', buf, hrun, hsession⟩ := ih hnext hroom'
    refine ⟨actions :: rest, f', buf, ?_, ?_⟩
    · exact (bind_eq hcall).trans (bind_eq hrun)
    · exact (bind_eq hout).trans (bind_eq hsession)

/-- A text whose lines are machines starts an instance of these machines. -/
theorem start_machines {lib : Codecs} {ms : List Machine} {text : List Char}
    (hreads : (lines text).mapM (Machine.fromStr R lib) = .ok ms)
    (padding blocking : F64) (now : Instant) (rng : R) :
    MaybenotFramework.start lib text padding blocking now rng =
      (Framework.new ms padding blocking now rng).map fun made =>
        (made.mapError fun _ => MaybenotResult.startFramework).map (⟨·, []⟩) := by
  unfold MaybenotFramework.start
  rw [hreads]
  dsimp only
  cases Framework.new (T := Instant) (D := Duration) ms padding blocking now rng with
  | error e => rfl
  | ok made => cases made <;> rfl

theorem lines_texts {lib : Codecs} {ms : List Machine} {texts : List (List Char)}
    (hms : ∀ m ∈ ms, m.Portable R lib) (htexts : ms.mapM (Machine.serialize lib) = some texts) :
    (lines (joined texts)).mapM (Machine.fromStr R lib) = .ok ms := by
  obtain ⟨hreads, hplain⟩ := Machine.Portable.texts hms htexts
  have hlines : lines (joined texts) = texts :=
    lines_joined (fun t ht => (hplain t ht).1) fun t ht =>
      ⟨fun hc => ((hplain t ht).2 _ hc).2.1 rfl, fun hc => ((hplain t ht).2 _ hc).2.2 rfl⟩
  rw [hlines]
  exact hreads

theorem cStrText_texts {lib : Codecs} {ms : List Machine} {texts : List (List Char)}
    (hms : ∀ m ∈ ms, m.Portable R lib) (htexts : ms.mapM (Machine.serialize lib) = some texts)
    (rest : List UInt8) :
    cStrText ((joined texts).flatMap String.utf8EncodeChar ++ 0 :: rest) = some (joined texts) := by
  obtain ⟨_, hplain⟩ := Machine.Portable.texts hms htexts
  apply cStrText_of
  intro c hc
  rcases mem_joined hc with rfl | ⟨t, ht, hc⟩
  · exact ⟨by decide, by decide⟩
  · exact ((hplain t ht).2 c hc).1

/-- With a place for the instance and a text, a start is that of the instance. -/
theorem maybenotStart_text {lib : Codecs} {machinesStr : List UInt8} {text : List Char}
    (h : cStrText machinesStr = some text) {padding blocking : F64}
    {old : Option (MaybenotFramework R)} {now : Instant} {rng : R}
    {made : Except MaybenotResult (MaybenotFramework R)}
    (hstart : MaybenotFramework.start lib text padding blocking now rng = .ok made) :
    (∀ e, made = .error e →
      maybenotStart lib machinesStr padding blocking (some old) now rng = .ok (e, some old)) ∧
    ∀ this, made = .ok this → maybenotStart lib machinesStr padding blocking (some old) now rng =
      .ok (.ok, some (some this)) := by
  unfold maybenotStart
  dsimp only
  rw [h]
  dsimp only
  rw [hstart]
  constructor
  · rintro e rfl
    rfl
  · rintro this rfl
    rfl

/-- Machines handed over as the lines of a C string run as they would without the interface: a
start fails only for limits that are no fractions and writes nothing then, and afterwards each
call gets all actions that a framework of these machines returns for its events, and no others. -/
theorem hosted_session {lib : Codecs} {ms : List Machine} {texts : List (List Char)}
    (hms : ∀ m ∈ ms, m.Portable R lib) (htexts : ms.mapM (Machine.serialize lib) = some texts)
    (rest : List UInt8) (old : Option (MaybenotFramework R)) (padding blocking : F64)
    (now : Instant) (rng : R) :
    let started := maybenotStart lib ((joined texts).flatMap String.utf8EncodeChar ++ 0 :: rest)
      padding blocking (some old) now rng
    (¬ (Framework.isFraction padding = true ∧ Framework.isFraction blocking = true) →
      started = .ok (.startFramework, some old)) ∧
    (Framework.isFraction padding = true ∧ Framework.isFraction blocking = true → ∃ f,
      Framework.new ms padding blocking now rng = .ok (.ok f) ∧
      started = .ok (.ok, some (some ⟨f, []⟩)) ∧
      ∀ calls : List Call, (∀ call ∈ calls, ms.length ≤ call.actionsOut.length) →
        ∃ actions f' buf, f.run (calls.map fun call =>
            (call.events.map convertEvent, call.now)) = .ok (actions, f') ∧
          session (some ⟨f, []⟩) calls =
            .ok (List.zipWith Call.answer calls actions, some ⟨f', buf⟩)) := by
  intro started
  have htext := cStrText_texts hms htexts rest
  have hstart := start_machines (lines_texts hms htexts) padding blocking now rng
  constructor
  · intro hno
    obtain ⟨e, he⟩ := Framework.new_refused (D := Duration) hno ms now rng
    rw [he] at hstart
    exact (maybenotStart_text htext hstart).1 _ rfl
  · rintro ⟨hp, hb⟩
    obtain ⟨f, hnew⟩ := Framework.new_total (T := Instant) (D := Duration) hp hb
      (fun m hm => (hms m hm).valid) now rng
    rw [hnew] at hstart
    refine ⟨f, hnew, (maybenotStart_text htext hstart).2 _ rfl, fun calls hroom => ?_⟩
    have hrunning : MaybenotFramework.Running ⟨f, []⟩ :=
      .start ⟨lib, joined texts, padding, blocking, now, rng, hstart⟩
    have hmachines : f.machines = ms := (Framework.new_wellFormed hnew).2.2
    refine session_run hrunning fun call hcall => ?_
    change f.machines.length ≤ _
    rw [hmachines]
    exact hroom call hcall

/-- Two machines that pad 20 ms after a packet are started from their texts, and the call for a
packet writes what both ask for. -/
theorem paddings_hosted : ∃ started : MaybenotFramework Unit,
    maybenotStart Machine.padTwentyCodecs
      ((joined [versionText ++ Machine.padTwentyText, versionText ++ Machine.padTwentyText]).flatMap
        String.utf8EncodeChar ++ 0 :: []) ⟨0⟩ ⟨0⟩ (some none) 0 () =
          .ok (.ok, some (some started)) ∧
    ∃ last, session (some started) [⟨0, [⟨.normalSent, 0⟩], [none, none, none], none⟩] =
      .ok ([(.ok, ⟨some [some (.sendPadding 0 ⟨0, 20000000⟩ false false),
        some (.sendPadding 1 ⟨0, 20000000⟩ false false), none], some (some 2)⟩)], last) := by
  have hportable : ∀ m ∈ [Machine.padTwenty, Machine.padTwenty],
      m.Portable Unit Machine.padTwentyCodecs := by
    intro m hm
    obtain rfl : m = Machine.padTwenty := by simpa using hm
    refine ⟨Machine.padTwenty_keeps, rfl, ?_, by decide +kernel⟩
    have hall : Machine.padTwentyText.all
        (fun c => c.isAlphanum || ['+', '/', '='].contains c) = true := by decide
    intro c hc
    simpa [Bool.or_eq_true] using List.all_eq_true.mp hall c hc
  have htexts : [Machine.padTwenty, Machine.padTwenty].mapM
      (Machine.serialize Machine.padTwentyCodecs) =
        some [versionText ++ Machine.padTwentyText, versionText ++ Machine.padTwentyText] := by
    decide +kernel
  have hsession := hosted_session hportable htexts [] none ⟨0⟩ ⟨0⟩ 0 ()
  obtain ⟨f, hnew, hstarted, hcalls⟩ := hsession.2 ⟨by decide +kernel, by decide +kernel⟩
  obtain ⟨actions, f', buf, hrun, hall⟩ :=
    hcalls [⟨0, [⟨.normalSent, 0⟩], [none, none, none], none⟩] (by simp)
  have hasks : ((Framework.new (T := Instant) (D := Duration)
      [Machine.padTwenty, Machine.padTwenty] ⟨0⟩ ⟨0⟩ 0 ()).toOption.bind fun made =>
        made.toOption.bind fun f => (f.run [([.normalSent], 0)]).toOption.map (·.1)) =
      some [[.sendPadding 20000000 false false 0, .sendPadding 20000000 false false 1]] := by
    decide +kernel
  simp only [Option.bind_eq_some_iff, Option.map_eq_some_iff, toOption_eq_some] at hasks
  obtain ⟨_, hnew', f1, rfl, ⟨_, f2⟩, hrun', rfl⟩ := hasks
  obtain rfl : f1 = f := Except.ok.inj (Except.ok.inj (hnew'.symm.trans hnew))
  obtain ⟨rfl, _⟩ := Prod.mk.inj (Except.ok.inj (hrun'.symm.trans hrun))
  exact ⟨_, hstarted, _, hall⟩

/-- A machine that was read is valid. -/
theorem fromStr_valid {lib : Codecs} {s : List Char} {m : Machine}
    (h : Machine.fromStr R lib s = .ok m) : m.validate R = .ok () := by
  have hfailed {text : String} {args : List Arg} {rest : Unit → Except Error Machine} :
      (fail text args >>= rest) ≠ .ok m := by simp [fail, bind, Except.bind]
  unfold Machine.fromStr at h
  dsimp only at h
  split at h <;> try exact absurd h hfailed
  split at h <;> try exact absurd h hfailed
  split at h <;> try exact absurd h hfailed
  split at h
  · exact absurd h (by simp)
  · obtain ⟨buf, _, h⟩ := bind_ok.mp h
    obtain ⟨m', _, h⟩ := bind_ok.mp h
    obtain ⟨u, hvalid, h⟩ := bind_ok.mp h
    exact pure_ok.mp h ▸ hvalid

theorem mapM_valid {lib : Codecs} {texts : List (List Char)} {ms : List Machine}
    (h : texts.mapM (Machine.fromStr R lib) = .ok ms) : ∀ m ∈ ms, m.validate R = .ok () := by
  induction texts generalizing ms with
  | nil =>
    obtain rfl := Except.ok.inj h
    exact fun m hm => absurd hm List.not_mem_nil
  | cons text texts ih =>
    rw [List.mapM_cons] at h
    obtain ⟨m, hm, h⟩ := bind_ok.mp h
    obtain ⟨more, hmore, h⟩ := bind_ok.mp h
    obtain rfl := pure_ok.mp h
    intro m' hm'
    rcases List.mem_cons.mp hm' with rfl | hm'
    · exact fromStr_valid hm
    · exact ih hmore m' hm'

/-- A start always returns, and leaves the memory alone unless it succeeds. Machines that were
read are never refused, and an instance runs those of the lines. -/
theorem start_outcome (lib : Codecs) (machinesStr : List UInt8) (padding blocking : F64)
    (out : Option (Option (MaybenotFramework R))) (now : Instant) (rng : R) :
    ∃ result out', maybenotStart lib machinesStr padding blocking out now rng =
        .ok (result, out') ∧ (result ≠ .ok → out' = out) ∧
      (result = .startFramework →
        ¬ (Framework.isFraction padding = true ∧ Framework.isFraction blocking = true)) ∧
      (result = .ok → ∃ this text, out' = some (some this) ∧ this.Running ∧
        cStrText machinesStr = some text ∧
        (lines text).mapM (Machine.fromStr R lib) = .ok this.framework.machines) := by
  cases out with
  | none => exact ⟨_, _, rfl, fun _ => rfl, by simp, by simp⟩
  | some old =>
    cases htext : cStrText machinesStr with
    | none =>
      refine ⟨.machineStringNotUtf8, some old, ?_, fun _ => rfl, by simp, by simp⟩
      unfold maybenotStart
      dsimp only
      rw [htext]
      rfl
    | some text =>
      cases hread : (lines text).mapM (Machine.fromStr R lib) with
      | error e =>
        have hstart : MaybenotFramework.start lib text padding blocking now rng =
            .ok (.error .invalidMachineString) := by
          unfold MaybenotFramework.start
          rw [hread]
          rfl
        exact ⟨_, _, (maybenotStart_text htext hstart).1 _ rfl, fun _ => rfl, by simp, by simp⟩
      | ok ms =>
        have hstart := start_machines hread padding blocking now rng
        by_cases hfrac : Framework.isFraction padding = true ∧ Framework.isFraction blocking = true
        · obtain ⟨f, hnew⟩ := Framework.new_total (T := Instant) (D := Duration) hfrac.1 hfrac.2
            (mapM_valid hread) now rng
          rw [hnew] at hstart
          refine ⟨_, _, (maybenotStart_text htext hstart).2 _ rfl, fun hne => absurd rfl hne,
            by simp, fun _ => ⟨_, text, rfl, .start ⟨lib, text, _, _, _, _, hstart⟩, rfl, ?_⟩⟩
          rw [hread, (Framework.new_wellFormed hnew).2.2]
        · obtain ⟨e, he⟩ := Framework.new_refused (D := Duration) hfrac ms now rng
          rw [he] at hstart
          exact ⟨_, _, (maybenotStart_text htext hstart).1 _ rfl, fun _ => rfl, fun _ => hfrac,
            by simp⟩

end Session

end Maybenot

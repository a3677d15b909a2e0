import Maybenot.Proofs.Alongside
import Maybenot.Proofs.Isolation
import Maybenot.Proofs.Limits

namespace Maybenot
open Lib

/-- A machine whose sampling leaves nothing to chance; it may signal. -/
structure Machine.Chanceless (R : Type) [RngCore R] (m : Machine) : Prop where
  targets : ∀ st ∈ m.states, ∀ (i : Fin eventNum) vector, st.transitions.get i = some vector →
    ∃ t, vector = [t] ∧ t.prob.val = .fin 1
  dists : ∀ st ∈ m.states, ∀ d ∈ st.dists, d.Constant R

variable {R T D : Type} [RngCore R]

theorem Machine.Chanceless.sample {m : Machine} (h : m.Chanceless R) {st : State}
    (hst : st ∈ m.states) (event : Event) (r r' : R) :
    (st.sampleState event r).1 = (st.sampleState event r').1 := by
  unfold State.sampleState
  cases hv : st.transitions[event.toUsize] with
  | none => rfl
  | some vector =>
    obtain ⟨t, rfl, hprob⟩ := h.targets st hst _ vector hv
    have hone (r : R) : State.firstAbove (RngCore.genUnit r).1 (Flt.ofRat 0) [t] = some t.state :=
      firstAbove_certain (RngCore.genUnit r).1.2.2 hprob
    exact (hone r).trans (hone r').symm

theorem Machine.Chanceless.action {m : Machine} (h : m.Chanceless R) {st : State}
    (hst : st ∈ m.states) {a : Action} (ha : st.action = some a) : ∀ d ∈ a.dists, d.Constant R := by
  refine fun d hd => h.dists st hst d ?_
  simp [State.dists, ha, hd]

namespace Framework

/-- A framework of the machines beside itself with another source of randomness. -/
def Redrawn (ms : List Machine) (f g : Framework R T D) : Prop :=
  f.machines = ms ∧ ∃ r, g = { f with rng := r }

theorem counterChange_redrawn {c : Option Counter}
    (hc : ∀ d ∈ c.toList.flatMap Counter.dists, d.Constant R) (other value : Nat) (once : Bool)
    (r r' : R) : (counterChange c other value once r).1 = (counterChange c other value once r').1 ∧
      (counterChange c other value once r).2.1 = (counterChange c other value once r').2.1 := by
  have hseen : ((once || (counterChange c other value once r').2.1) && false) = false :=
    Bool.and_false _
  have hsame : (counterChange c other value (once || false) r).1 =
      (counterChange c other value once r').1 ∧
      (counterChange c other value (once || false) r).2.1 =
        (counterChange c other value once r').2.1 := Beside.counterChange_eq hc other value hseen
  rwa [Bool.or_false] at hsame

theorem applyCounters_redrawn {st : State} (hst : ∀ d ∈ st.dists, d.Constant R)
    (f : Framework R T D) (r : R) (mi : Nat) (rt : MachineRuntime T D) :
    (f.applyCounters mi rt st).1 = (applyCounters { f with rng := r } mi rt st).1 ∧
      ∃ r', (applyCounters { f with rng := r } mi rt st).2 =
        { (f.applyCounters mi rt st).2 with rng := r' } := by
  let first (r : R) := counterChange st.counter.1 rt.counterB rt.counterA f.counterZeroedOnce.1 r
  let second (r : R) := counterChange st.counter.2 rt.counterA rt.counterB f.counterZeroedOnce.2 r
  have hfirst : (first r).1 = (first f.rng).1 ∧ (first r).2.1 = (first f.rng).2.1 :=
    counterChange_redrawn (fun d hd => hst d (by
      simp only [State.dists, List.mem_append]
      exact .inl (.inr hd))) _ _ _ _ _
  have hsecond : (second (first r).2.2).1 = (second (first f.rng).2.2).1 ∧
      (second (first r).2.2).2.1 = (second (first f.rng).2.2).2.1 :=
    counterChange_redrawn (fun d hd => hst d (by
      simp only [State.dists, List.mem_append]
      exact .inr hd)) _ _ _ _ _
  simp only [first, second] at hfirst hsecond
  unfold applyCounters
  dsimp only
  rw [hfirst.1, hfirst.2, hsecond.1, hsecond.2]
  exact ⟨rfl, _, rfl⟩

variable [Time.Duration D] [Time.Instant T D]

theorem triggerAction_redrawn (mi : Nat) {a : Action} (h : ∀ d ∈ a.dists, d.Constant R)
    (r r' : R) : (triggerAction (D := D) mi a r).1 = (triggerAction mi a r').1 := by
  cases a with
  | cancel timer => rfl
  | sendPadding bypass replace timeout limit =>
    have htime := Action.sampleTimeout_eq h r r'
    exact congrArg (fun n => TriggerAction.sendPadding (Time.Duration.fromMicros n) bypass replace
      mi) htime
  | blockOutgoing bypass replace timeout duration limit =>
    have htime := Action.sampleTimeout_eq h r r'
    have hlong := Action.sampleDuration_eq h
      (Action.sampleTimeout (.blockOutgoing bypass replace timeout duration limit) r).2
      (Action.sampleTimeout (.blockOutgoing bypass replace timeout duration limit) r').2
    exact congrArg₂ (fun n k => TriggerAction.blockOutgoing (Time.Duration.fromMicros n)
      (Time.Duration.fromMicros k) bypass replace mi) htime hlong
  | updateTimer replace duration limit =>
    have hlong := Action.sampleDuration_eq h r r'
    exact congrArg (fun n => TriggerAction.updateTimer (Time.Duration.fromMicros n) replace mi)
      hlong

/-- Where nothing is left to chance, all draws come to the same. -/
theorem redrawn_alongside {ms : List Machine} (hms : ∀ m ∈ ms, m.Chanceless R) :
    Alongside (R := R) (T := T) (D := D) ms (Redrawn ms) (fun rt rt' => rt = rt') where
  machines := by
    rintro f g ⟨hf, r, rfl⟩
    exact ⟨hf, hf⟩
  signal := by
    rintro f g ⟨hf, r, rfl⟩
    rfl
  length := by
    rintro f g ⟨hf, r, rfl⟩
    rfl
  runtimeAt := by
    rintro f g mi ⟨hf, r, rfl⟩
    exact .refl _
  current h := congrArg _ h
  limit h := congrArg _ h
  move s h := h ▸ rfl
  relimit n h := h ▸ rfl
  note := by
    rintro f g s ⟨hf, r, rfl⟩
    exact ⟨hf, r, rfl⟩
  draw := by
    rintro f g draw ⟨hf, r, rfl⟩
    exact ⟨hf, _, rfl⟩
  sample event _ hm hst := (hms _ hm).sample hst event _ _
  sampleLimit _ hm hst ha := Action.sampleLimit_eq ((hms _ hm).action hst ha) _ _
  ask mi _ hm hst ha := triggerAction_redrawn mi ((hms _ hm).action hst ha) _ _
  setRuntime := by
    rintro f g rt rt' mi ⟨hf, r, rfl⟩ rfl
    exact ⟨hf, r, rfl⟩
  setAction := by
    rintro f g mi a ⟨hf, r, rfl⟩
    unfold setAction
    dsimp only
    split
    · exact .returned ⟨hf, r, rfl⟩
    · exact .failed _
  below := by
    rintro f g rt rt' m ⟨hf, r, rfl⟩ rfl hm
    rfl
  count := by
    rintro f g rt rt' m st mi ⟨hf, r, rfl⟩ rfl hm hst
    obtain ⟨hanswer, hrest⟩ := applyCounters_redrawn ((hms m hm).dists st hst) f r mi rt
    exact ⟨hanswer, hf, hrest⟩
  actionAt := by
    rintro m st f g mi hm hst hcounts ⟨hf, r, rfl⟩
    exact (Alike.refl _).imp fun a b h => congrArg _ h
  raise := by
    rintro m st event r' f g mi hm hst hs ⟨hf, r, rfl⟩
    exact ⟨hf, r, rfl⟩
  take := by
    rintro f g ⟨hf, r, rfl⟩
    exact ⟨hf, r, rfl⟩
  record := by
    rintro f g e ⟨hf, r, rfl⟩
    have hmachines := recorded_apart (fun f : Framework R T D => f.machines)
      (fun _ _ _ _ _ _ => rfl) f e
    refine ⟨hmachines.trans hf, r, ?_⟩
    cases e with
    | blockingBegin _ | blockingEnd =>
      simp only [recorded]
      split <;> rfl
    | _ => rfl
  recordOwn := by
    rintro f g rt rt' e ⟨hf, r, rfl⟩ rfl
    rfl

/-- Machines with the same first limits, whatever was drawn for them. -/
def SameLimits (s s' : List (MachineRuntime T D) × R) : Prop := s.1 = s'.1

omit [Time.Duration D] [Time.Instant T D] in
theorem SameLimits.limit {m : Machine} (hm : m.Chanceless R) {s s' : List (MachineRuntime T D) × R}
    (h : SameLimits s s') (rt : MachineRuntime T D) :
    Alike SameLimits (startLimit s (rt, m)) (startLimit s' (rt, m)) := by
  unfold startLimit
  refine (at?_alike m.states 0).bind fun st st' hst => ?_
  obtain ⟨rfl, hst⟩ := hst
  cases haction : st.action with
  | none => exact .returned (congrArg (· ++ [rt]) h)
  | some action =>
    dsimp only
    rw [Action.sampleLimit_eq (hm.action hst haction) s.2 s'.2]
    exact .returned (congrArg (· ++ _) h)

omit [Time.Instant T D] in
theorem new_redrawn {ms : List Machine} (hms : ∀ m ∈ ms, m.Chanceless R) {padding blocking : F64}
    {now : T} {rng rng' : R} {f g : Framework R T D}
    (hf : Framework.new ms padding blocking now rng = .ok (.ok f))
    (hg : Framework.new ms padding blocking now rng' = .ok (.ok g)) : Redrawn ms f g := by
  obtain ⟨_, _, _, started, hstarted, rfl⟩ := new_ok.mp hf
  obtain ⟨_, _, _, started', hstarted', rfl⟩ := new_ok.mp hg
  rw [← List.map_prod_right_eq_zip, List.foldlM_map] at hstarted hstarted'
  have hempty : SameLimits (([], rng) : List (MachineRuntime T D) × R) ([], rng') := rfl
  have hfold := Alike.foldlM (fun m (hm : m ∈ ms) _ _ h => h.limit (hms m hm) (startRuntime now m))
    hempty
  obtain ⟨s, hs, hruntime⟩ := hfold.ok hstarted'
  obtain rfl : started = s := Except.ok.inj (hstarted.symm.trans hs)
  refine ⟨rfl, started'.2, ?_⟩
  unfold fresh
  rw [hruntime]

/-- Machines that leave nothing to chance do not feel the source of randomness: with any two, in all
sessions, they return the same and come to the same. -/
theorem chance_unfelt {ms : List Machine} (hms : ∀ m ∈ ms, m.validate R = .ok () ∧ m.Chanceless R)
    {padding blocking : F64} (hpadding : isFraction padding = true)
    (hblocking : isFraction blocking = true) (now : T) (rng rng' : R) :
    ∃ f f' : Framework R T D,
      Framework.new ms padding blocking now rng = .ok (.ok f) ∧
      Framework.new ms padding blocking now rng' = .ok (.ok f') ∧
      ∀ calls : List (List TriggerEvent × T), ∃ actions g g',
        f.run calls = .ok (actions, g) ∧ f'.run calls = .ok (actions, g') ∧
        g' = { g with rng := g'.rng } := by
  have hvalid := fun m hm => (hms m hm).1
  have hchance := fun m hm => (hms m hm).2
  obtain ⟨f, hf⟩ := new_total (T := T) (D := D) hpadding hblocking hvalid now rng
  obtain ⟨f', hf'⟩ := new_total (T := T) (D := D) hpadding hblocking hvalid now rng'
  refine ⟨f, f', hf, hf', fun calls => ?_⟩
  obtain ⟨hwf, hsent, _⟩ := new_wellFormed hf'
  obtain ⟨actions, g', hrun'⟩ := run_total hwf hsent calls
  have hactions : ∀ f g : Framework R T D, Redrawn ms f g → f.actions = g.actions := by
    rintro f g ⟨_, r, rfl⟩
    rfl
  have hcalls : ∀ c ∈ calls.map fun c => (c.1, c.2, c.2), ∀ f g : Framework R T D,
      Redrawn ms f g → Redrawn ms (f.startCall c.2.1) (g.startCall c.2.2) := by
    rintro c hc f g ⟨hms, r, rfl⟩
    obtain ⟨call, _, rfl⟩ := List.mem_map.mp hc
    exact ⟨hms, r, rfl⟩
  have halike := (redrawn_alongside hchance).run hactions hcalls (new_redrawn hchance hf hf')
  simp only [List.map_map, Function.comp_def, Prod.mk.eta, List.map_id'] at halike
  obtain ⟨⟨actions', g⟩, hrun, hreturned, _, r, hend⟩ := halike.ok hrun'
  obtain rfl : actions' = actions := hreturned
  refine ⟨actions', g, g', hrun, hrun', ?_⟩
  obtain rfl : g' = { g with rng := r } := hend
  rfl

/-- Zero or a half. -/
def coin (r : Bool) : Rat := if r then 1 / 2 else 0

theorem coin_unit (r : Bool) : 0 ≤ coin r ∧ coin r < 1 := by
  unfold coin
  split <;> norm_num

/-- A generator that draws zero and a half in turns. -/
instance : RngCore Bool where
  genUnit r := (⟨coin r, coin_unit r⟩, !r)
  construct _ := .ok ()
  sample _ r := (Flt.ofRat (coin r), !r)

theorem timedPadder_chanceless : timedPadder.Chanceless Bool := by
  have hcertain : ∀ st ∈ timedPadder.states, ∀ i, isCertain (st.transitions.get i) = true := by
    decide +kernel
  have hconstant : ∀ st ∈ timedPadder.states, ∀ d ∈ st.dists, ∀ r r' : Bool,
      (d.sample r).1 = (d.sample r').1 := by decide +kernel
  refine ⟨fun st hst i vector hv => ?_, fun st hst d hd => ⟨(d.sample true).1, fun r => ?_⟩⟩
  · have hi := hcertain st hst i
    rw [hv] at hi
    cases vector with
    | nil => exact absurd hi (by simp [isCertain])
    | cons t ts =>
      cases ts with
      | nil => exact ⟨t, rfl, (of_decide_eq_true hi).1⟩
      | cons => exact absurd hi (by simp [isCertain])
  · exact hconstant st hst d hd r true

/-- It pads the same with the draws in either order. -/
theorem timedPadder_redrawn : ∃ f f' : Framework Bool Instant Duration,
    Framework.new [timedPadder] ⟨0⟩ ⟨0⟩ (0 : Instant) true = .ok (.ok f) ∧
    Framework.new [timedPadder] ⟨0⟩ ⟨0⟩ (0 : Instant) false = .ok (.ok f') ∧
    ∃ actions g g', f.run [([.normalSent], 1), ([.paddingSent 0], 2)] = .ok (actions, g) ∧
      f'.run [([.normalSent], 1), ([.paddingSent 0], 2)] = .ok (actions, g') ∧
      g' = { g with rng := g'.rng } := by
  have hms : ∀ m ∈ [timedPadder], m.validate Bool = .ok () ∧ m.Chanceless Bool := by
    intro m hm
    obtain rfl := List.mem_singleton.mp hm
    exact ⟨by decide +kernel, timedPadder_chanceless⟩
  obtain ⟨f, f', hf, hf', hcalls⟩ := chance_unfelt (D := Duration) hms
    (show isFraction ⟨0⟩ = true by decide +kernel) (show isFraction ⟨0⟩ = true by decide +kernel)
    (0 : Instant) true false
  exact ⟨f, f', hf, hf', hcalls [([.normalSent], 1), ([.paddingSent 0], 2)]⟩

end Framework

end Maybenot

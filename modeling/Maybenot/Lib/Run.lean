import Mathlib.Tactic.Common

namespace Maybenot.Lib

theorem bind_ok {x : Except ε α} {f : α → Except ε β} {b : β} :
    (x >>= f) = .ok b ↔ ∃ a, x = .ok a ∧ f a = .ok b := by
  cases x <;> simp [bind, Except.bind]

theorem bind_eq {x : Except ε α} {f : α → Except ε β} {a : α} (h : x = .ok a) :
    (x >>= f) = f a := by
  rw [h]
  rfl

@[simp] theorem ok_bind (a : α) (f : α → Except ε β) :
    ((Except.ok a : Except ε α) >>= f) = f a := rfl

/-- Two runs are the same where they go on the same way from what the first part returns. -/
theorem bind_same {x y : Except ε α} {f g : α → Except ε β} (hxy : x = y)
    (h : ∀ a, x = .ok a → f a = g a) : (x >>= f) = (y >>= g) := by
  subst hxy
  cases x with
  | error e => rfl
  | ok a => exact h a rfl

/-- A run that is carried over to other states: its first part is, and it goes on alike from
there. -/
theorem bind_carried {x : Except ε α} {x' : Except ε α'} {f : α → Except ε β}
    {f' : α' → Except ε β'} {g : α → α'} {h : β → β'} (hx : x' = x.map g) (hf : ∀ a, f' (g a) = (f a).map h) :
    (x' >>= f') = (x >>= f).map h := by
  subst hx
  cases x with
  | error e => rfl
  | ok a => exact hf a

/-- A run is carried over where its first part stays and the rest is. -/
theorem bind_alike {x : Except ε α} {f : α → Except ε β} {f' : α → Except ε β'} {h : β → β'}
    (hf : ∀ a, f' a = (f a).map h) : (x >>= f') = (x >>= f).map h := by
  cases x with
  | error e => rfl
  | ok a => exact hf a

/-- Two runs look alike where their first parts do and their rests do. -/
theorem bind_like {x x' : Except ε α} {f k : α → Except ε β} {g : α → γ} {h : β → δ}
    (hx : x.map g = x'.map g)
    (hf : ∀ a a', x = .ok a → x' = .ok a' → g a = g a' → (f a).map h = (k a').map h) :
    (x >>= f).map h = (x' >>= k).map h := by
  cases x with
  | error e =>
    cases x' with
    | error e' => exact congrArg Except.error (Except.error.inj hx)
    | ok a' => cases hx
  | ok a =>
    cases x' with
    | error e' => cases hx
    | ok a' => exact hf a a' rfl rfl (Except.ok.inj hx)

/-- Two runs fail alike, or return what a relation holds between. -/
inductive Alike (S : α → β → Prop) : Except ε α → Except ε β → Prop
  | failed (e : ε) : Alike S (.error e) (.error e)
  | returned {a : α} {b : β} (h : S a b) : Alike S (.ok a) (.ok b)

theorem Alike.refl (x : Except ε α) : Alike (fun a b => a = b) x x := by
  cases x with
  | error e => exact .failed e
  | ok a => exact .returned rfl

theorem Alike.of_map {x : Except ε α} {y : Except ε β} {f : α → γ} {g : β → γ}
    (h : x.map f = y.map g) : Alike (fun a b => f a = g b) x y := by
  cases x with
  | error e =>
    cases y with
    | error e' => exact Except.error.inj h ▸ .failed e
    | ok b => cases h
  | ok a =>
    cases y with
    | error e => cases h
    | ok b => exact .returned (Except.ok.inj h)

theorem Alike.imp {S S' : α → β → Prop} {x : Except ε α} {y : Except ε β} (h : Alike S x y)
    (hS : ∀ a b, S a b → S' a b) : Alike S' x y := by
  cases h with
  | failed e => exact .failed e
  | returned h => exact .returned (hS _ _ h)

/-- Runs that are alike may be followed by runs that are alike. -/
theorem Alike.bind {S : α → β → Prop} {S' : α' → β' → Prop} {x : Except ε α} {y : Except ε β}
    {f : α → Except ε α'} {g : β → Except ε β'} (h : Alike S x y)
    (hfg : ∀ a b, S a b → Alike S' (f a) (g b)) : Alike S' (x >>= f) (y >>= g) := by
  cases h with
  | failed e => exact .failed e
  | returned h => exact hfg _ _ h

/-- Loops whose steps are alike are alike. -/
theorem Alike.foldlM {S : σ → τ → Prop} {step : σ → α → Except ε σ} {step' : τ → α → Except ε τ}
    {xs : List α} (h : ∀ x ∈ xs, ∀ s t, S s t → Alike S (step s x) (step' t x)) {s : σ} {t : τ}
    (hst : S s t) : Alike S (xs.foldlM step s) (xs.foldlM step' t) := by
  induction xs generalizing s t with
  | nil => exact .returned hst
  | cons x xs ih =>
    rw [List.foldlM_cons, List.foldlM_cons]
    refine (h x List.mem_cons_self s t hst).bind fun _ _ => ?_
    exact ih fun y hy => h y (List.mem_cons_of_mem x hy)

theorem Alike.ok {S : α → β → Prop} {x : Except ε α} {y : Except ε β} {b : β} (h : Alike S x y)
    (hy : y = .ok b) : ∃ a, x = .ok a ∧ S a b := by
  cases h with
  | failed e => cases hy
  | returned h => exact ⟨_, rfl, Except.ok.inj hy ▸ h⟩

@[simp] theorem pure_ok {a b : α} : (pure a : Except ε α) = .ok b ↔ a = b := by
  simp [pure, Except.pure]

theorem toOption_eq_some {x : Except ε α} {a : α} : x.toOption = some a ↔ x = .ok a := by
  cases x <;> simp [Except.toOption]

/-- A fold of a fallible step relates its ends by what every step relates. -/
theorem foldlM_rel {step : σ → α → Except ε σ} {R : σ → σ → Prop} (refl : ∀ s, R s s)
    (trans : ∀ {s t u}, R s t → R t u → R s u) {xs : List α}
    (h : ∀ s, ∀ x ∈ xs, ∀ t, step s x = .ok t → R s t) :
    ∀ s t, xs.foldlM step s = .ok t → R s t := by
  induction xs with
  | nil =>
    intro s t ht
    obtain rfl : s = t := by simpa using ht
    exact refl s
  | cons x xs ih =>
    intro s t ht
    rw [List.foldlM_cons, bind_ok] at ht
    obtain ⟨u, hu, ht⟩ := ht
    exact trans (h s x List.mem_cons_self u hu)
      (ih (fun s y hy => h s y (List.mem_cons_of_mem _ hy)) u t ht)

/-- A fold of a fallible step keeps what every step keeps. -/
theorem foldlM_keeps {step : σ → α → Except ε σ} {P : σ → Prop} {xs : List α}
    (h : ∀ s, ∀ x ∈ xs, ∀ t, P s → step s x = .ok t → P t) {s t : σ} (hs : P s)
    (ht : xs.foldlM step s = .ok t) : P t :=
  foldlM_rel (R := fun s t => P s → P t) (fun _ hs => hs) (fun hst htu hs => htu (hst hs))
    (fun s x hx t hst hs => h s x hx t hs hst) s t ht hs

/-- A fold of a step that does not fail where the invariant holds does not fail. -/
theorem foldlM_total {step : σ → α → Except ε σ} {P : σ → Prop} {xs : List α}
    (h : ∀ s, ∀ x ∈ xs, P s → ∃ t, step s x = .ok t ∧ P t) {s : σ} (hs : P s) :
    ∃ t, xs.foldlM step s = .ok t ∧ P t := by
  induction xs generalizing s with
  | nil => exact ⟨s, rfl, hs⟩
  | cons x xs ih =>
    obtain ⟨t, hst, ht⟩ := h s x List.mem_cons_self hs
    obtain ⟨u, htu, hu⟩ := ih (fun s y hy => h s y (List.mem_cons_of_mem _ hy)) ht
    exact ⟨u, by rw [List.foldlM_cons]; exact (bind_eq hst).trans htu, hu⟩

/-- Folds of steps that are the same where an invariant holds are the same. -/
theorem foldlM_congr {step step' : σ → α → Except ε σ} {P : σ → Prop} {xs : List α}
    (h : ∀ s, ∀ x ∈ xs, P s → step s x = step' s x)
    (hkeep : ∀ s, ∀ x ∈ xs, ∀ t, P s → step s x = .ok t → P t) {s : σ} (hs : P s) :
    xs.foldlM step s = xs.foldlM step' s := by
  induction xs generalizing s with
  | nil => rfl
  | cons x xs ih =>
    rw [List.foldlM_cons, List.foldlM_cons, ← h s x List.mem_cons_self hs]
    cases hst : step s x with
    | error e => rfl
    | ok t =>
      exact ih (fun s y hy => h s y (List.mem_cons_of_mem _ hy))
        (fun s y hy => hkeep s y (List.mem_cons_of_mem _ hy))
        (hkeep s x List.mem_cons_self t hs hst)

/-- A fold is carried over to other states where every step is. -/
theorem foldlM_carried {step : σ → α → Except ε σ} {step' : σ' → α → Except ε σ'} {g : σ → σ'}
    (h : ∀ s x, step' (g s) x = (step s x).map g) (xs : List α) (s : σ) :
    xs.foldlM step' (g s) = (xs.foldlM step s).map g := by
  induction xs generalizing s with
  | nil => rfl
  | cons x xs ih =>
    rw [List.foldlM_cons, List.foldlM_cons]
    exact bind_carried (h s x) ih

/-- A fold over the indices of a list, the invariant saying how far it has come. -/
theorem foldlM_range {step : σ → Nat → Except ε σ} {P : Nat → σ → Prop}
    (h : ∀ i s t, i < n → P i s → step s i = .ok t → P (i + 1) t) {s t : σ} (hs : P 0 s)
    (ht : (List.range n).foldlM step s = .ok t) : P n t := by
  induction n generalizing t with
  | zero =>
    obtain rfl : s = t := by simpa using ht
    exact hs
  | succ n ih =>
    rw [List.range_succ, List.foldlM_append, bind_ok] at ht
    obtain ⟨u, hu, ht⟩ := ht
    rw [List.foldlM_cons, bind_ok] at ht
    obtain ⟨v, hv, ht⟩ := ht
    obtain rfl : v = t := by simpa using ht
    exact h n u v (Nat.lt_succ_self n)
      (ih (fun i s t hi => h i s t (Nat.lt_succ_of_lt hi)) hu) hv

/-- A fold over the indices of a list, with one index at which the invariant changes. -/
theorem foldlM_at {step : σ → Nat → Except ε σ} {P Q : σ → Prop} {k : Nat} (hk : k < n)
    (hbefore : ∀ i s t, i ≠ k → P s → step s i = .ok t → P t)
    (hown : ∀ s t, P s → step s k = .ok t → Q t)
    (hafter : ∀ i s t, i ≠ k → Q s → step s i = .ok t → Q t) {s t : σ} (hs : P s)
    (ht : (List.range n).foldlM step s = .ok t) : Q t := by
  have hall := foldlM_range (P := fun i s => if k < i then Q s else P s) ?_ ?_ ht
  · rw [if_pos hk] at hall
    exact hall
  · intro i s t _ hi hstep
    rcases Nat.lt_trichotomy i k with hlt | heq | hgt
    · rw [if_neg (by omega)] at hi ⊢
      exact hbefore i s t (Nat.ne_of_lt hlt) hi hstep
    · subst heq
      rw [if_neg (Nat.lt_irrefl i)] at hi
      rw [if_pos (Nat.lt_succ_self i)]
      exact hown s t hi hstep
    · rw [if_pos hgt] at hi
      rw [if_pos (Nat.lt_succ_of_lt hgt)]
      exact hafter i s t (Nat.ne_of_gt hgt) hi hstep
  · rw [if_neg (Nat.not_lt_zero k)]
    exact hs

/-- A fold over the indices of a list, cut at one of them. -/
theorem foldlM_split {step : σ → Nat → Except ε σ} {k : Nat} (hk : k < n) {s t : σ}
    (h : (List.range n).foldlM step s = .ok t) :
    ∃ (u v : σ) (rest : List Nat), (List.range k).foldlM step s = .ok u ∧ step u k = .ok v ∧
      (∀ i ∈ rest, k < i) ∧ rest.foldlM step v = .ok t := by
  obtain ⟨d, rfl⟩ := Nat.exists_eq_add_of_lt hk
  rw [Nat.add_right_comm, List.range_add, List.foldlM_append, bind_ok] at h
  obtain ⟨v, hv, h⟩ := h
  rw [List.range_succ, List.foldlM_append, bind_ok] at hv
  obtain ⟨u, hu, hv⟩ := hv
  refine ⟨u, v, _, hu, by simpa using hv, ?_, h⟩
  intro i hi
  obtain ⟨j, _, rfl⟩ := List.mem_map.mp hi
  omega

/-- Rounds of a step that goes on or answers, so many at most. -/
def rounds (step : σ → σ ⊕ β) : Nat → σ → Option β
  | 0, _ => none
  | n + 1, s =>
    match step s with
    | .inl t => rounds step n t
    | .inr b => some b

/-- Where every round that goes on lowers a measure, more rounds than that are always enough. -/
theorem rounds_end {step : σ → σ ⊕ β} (measure : σ → Nat)
    (h : ∀ s t, step s = .inl t → measure t < measure s) (s : σ) :
    ∃ b, ∀ n, measure s < n → rounds step n s = some b := by
  generalize hm : measure s = m
  induction m using Nat.strongRecOn generalizing s with
  | ind m ih =>
    cases hs : step s with
    | inr b =>
      refine ⟨b, fun n hn => ?_⟩
      cases n with
      | zero => exact absurd hn (Nat.not_lt_zero m)
      | succ n => simp only [rounds, hs]
    | inl t =>
      have hlt := h s t hs
      obtain ⟨b, hb⟩ := ih (measure t) (hm ▸ hlt) t rfl
      refine ⟨b, fun n hn => ?_⟩
      cases n with
      | zero => exact absurd hn (Nat.not_lt_zero m)
      | succ n =>
        simp only [rounds, hs]
        exact hb n (by omega)

/-- The states runs come to. -/
inductive Reach (init : σ → Prop) (step : σ → σ → Prop) : σ → Prop
  | start {s : σ} : init s → Reach init step s
  | next {s t : σ} : Reach init step s → step s t → Reach init step t

namespace Reach

variable {σ : Type _} {init : σ → Prop} {step : σ → σ → Prop}

/-- The rule for invariants: one that holds at the start and that every step keeps
holds in every state a run comes to. -/
theorem invariant {P : σ → Prop} (hinit : ∀ s, init s → P s)
    (hstep : ∀ s t, P s → step s t → P t) {s : σ} (h : Reach init step s) : P s := by
  induction h with
  | start hs => exact hinit _ hs
  | next _ hst ih => exact hstep _ _ ih hst

/-- An invariant may use what is known of reached states already. -/
theorem invariant_of {P : σ → Prop} (hinit : ∀ s, init s → P s)
    (hstep : ∀ s t, Reach init step s → P s → step s t → P t) {s : σ}
    (h : Reach init step s) : P s := by
  induction h with
  | start hs => exact hinit _ hs
  | next hr hst ih => exact hstep _ _ hr ih hst

theorem mono {step' : σ → σ → Prop} (hstep : ∀ s t, step s t → step' s t) {s : σ}
    (h : Reach init step s) : Reach init step' s := by
  induction h with
  | start hs => exact .start hs
  | next _ hst ih => exact .next ih (hstep _ _ hst)

end Reach

end Maybenot.Lib

import Mathlib.Logic.Basic

/-!
# Runs of a partial step function

A system is a step function that may refuse an action. `run` performs a list of
actions; `run_invariant` is the induction that turns a step lemma into a statement
about every run, and `run_invariant_of` does so when the step lemma needs a condition
on the state the action is taken in.
-/

namespace CrustSworker.Runs

variable {σ α : Type} (step : σ → α → Option σ)

def run : σ → List α → Option σ
  | s, [] => some s
  | s, a :: as =>
    match step s a with
    | none => none
    | some s' => run s' as

def Allowed (ok : σ → α → Prop) : σ → List α → Prop
  | _, [] => True
  | s, a :: as =>
    ok s a ∧
      match step s a with
      | none => True
      | some s' => Allowed ok s' as

instance Allowed.decide {ok : σ → α → Prop} [∀ s a, Decidable (ok s a)] :
    ∀ s as, Decidable (Allowed step ok s as)
  | _, [] => isTrue trivial
  | s, a :: as =>
    match h : step s a with
    | none => decidable_of_iff (ok s a) (by simp [Allowed, h])
    | some s' =>
      have : Decidable (Allowed step ok s' as) := Allowed.decide s' as
      decidable_of_iff (ok s a ∧ Allowed step ok s' as) (by simp [Allowed, h])

variable {step}

theorem run_cons {s t : σ} {a : α} {as : List α} (h : run step s (a :: as) = some t) :
    ∃ s', step s a = some s' ∧ run step s' as = some t := by
  simp only [run] at h
  split at h
  · cases h
  · rename_i s' hs
    exact ⟨s', hs, h⟩

theorem run_append (s : σ) (as bs : List α) :
    run step s (as ++ bs) = (run step s as).bind fun t => run step t bs := by
  induction as generalizing s with
  | nil => rfl
  | cons a as ih =>
    simp only [List.cons_append, run]
    cases step s a with
    | none => rfl
    | some s' => exact ih s'

theorem run_invariant_of {ok : σ → α → Prop} {Inv : σ → Prop}
    (hstep : ∀ s a s', step s a = some s' → ok s a → Inv s → Inv s') {s t : σ} {as : List α}
    (h : run step s as = some t) (hok : Allowed step ok s as) (hs : Inv s) : Inv t := by
  induction as generalizing s with
  | nil =>
    cases h
    exact hs
  | cons a as ih =>
    obtain ⟨s', ha, hrest⟩ := run_cons h
    simp only [Allowed, ha] at hok
    exact ih hrest hok.2 (hstep s a s' ha hok.1 hs)

theorem run_invariant {Inv : σ → Prop} (hstep : ∀ s a s', step s a = some s' → Inv s → Inv s')
    {s t : σ} {as : List α} (h : run step s as = some t) (hs : Inv s) : Inv t := by
  induction as generalizing s with
  | nil =>
    cases h
    exact hs
  | cons a as ih =>
    obtain ⟨s', ha, hrest⟩ := run_cons h
    exact ih hrest (hstep s a s' ha hs)

theorem allowed_iff {ok : σ → α → Prop} {s : σ} {as : List α} :
    Allowed step ok s as ↔ ∀ before a after s₁, as = before ++ a :: after →
      run step s before = some s₁ → ok s₁ a := by
  induction as generalizing s with
  | nil =>
    refine ⟨fun _ before a after s₁ h => ?_, fun _ => trivial⟩
    simp at h
  | cons b bs ih =>
    constructor
    · rintro ⟨hb, hbs⟩ before a after s₁ has hrun
      cases before with
      | nil =>
        cases has
        cases hrun
        exact hb
      | cons c before =>
        cases has
        obtain ⟨s', hs', hrest⟩ := run_cons hrun
        rw [hs'] at hbs
        exact ih.mp hbs before a after s₁ rfl hrest
    · intro h
      refine ⟨h [] b bs s rfl rfl, ?_⟩
      split
      · trivial
      · rename_i s' hs'
        refine ih.mpr fun before a after s₁ has hrun => h (b :: before) a after s₁ ?_ ?_
        · rw [has, List.cons_append]
        · simp only [run, hs']
          exact hrun

variable (step) in
def Always (P : σ → Prop) (s : σ) (as : List α) : Prop :=
  ∀ before after s₁, as = before ++ after → run step s before = some s₁ → P s₁

theorem always_nil {P : σ → Prop} {s : σ} : Always step P s [] ↔ P s := by
  constructor
  · intro h
    exact h [] [] s rfl rfl
  · rintro h before after s₁ hsplit hrun
    obtain ⟨rfl, rfl⟩ := List.append_eq_nil_iff.mp hsplit.symm
    cases hrun
    exact h

theorem always_cons {P : σ → Prop} {s s' : σ} {a : α} {as : List α} (h : step s a = some s') :
    Always step P s (a :: as) ↔ P s ∧ Always step P s' as := by
  constructor
  · intro hall
    refine ⟨hall [] (a :: as) s rfl rfl, fun before after s₁ hsplit hrun => ?_⟩
    refine hall (a :: before) after s₁ ?_ ?_
    · rw [hsplit, List.cons_append]
    · simp only [run, h]
      exact hrun
  · rintro ⟨hs, hall⟩ before after s₁ hsplit hrun
    cases before with
    | nil =>
      cases hrun
      exact hs
    | cons b before =>
      cases hsplit
      obtain ⟨s'', hs'', hrest⟩ := run_cons hrun
      obtain rfl : s' = s'' := by simpa [h] using hs''
      exact hall before after s₁ rfl hrest

/-- When an allowed step keeps the invariant and a step that is not allowed breaks `P`, the
runs in which `P` always holds are those with allowed steps only. Only runs with all their
steps in the domain are looked at. -/
theorem always_iff_allowed_of {dom ok : σ → α → Prop} {Inv P : σ → Prop} (hP : ∀ s, Inv s → P s)
    (hstep : ∀ s a s', step s a = some s' → dom s a → Inv s →
      (ok s a → Inv s') ∧ (P s' → ok s a))
    {s t : σ} {as : List α} (hrun : run step s as = some t) (hdom : Allowed step dom s as)
    (hs : Inv s) : Always step P s as ↔ Allowed step ok s as := by
  induction as generalizing s with
  | nil => exact always_nil.trans ⟨fun _ => trivial, fun _ => hP s hs⟩
  | cons a as ih =>
    obtain ⟨s', ha, hrest⟩ := run_cons hrun
    simp only [Allowed, ha] at hdom
    obtain ⟨hkeep, hbreak⟩ := hstep s a s' ha hdom.1 hs
    simp only [always_cons ha, Allowed, ha]
    constructor
    · rintro ⟨-, hall⟩
      have hok := hbreak (hall [] as s' rfl rfl)
      exact ⟨hok, (ih hrest hdom.2 (hkeep hok)).mp hall⟩
    · rintro ⟨hok, hallowed⟩
      exact ⟨hP s hs, (ih hrest hdom.2 (hkeep hok)).mpr hallowed⟩

theorem always_of_allowed {ok : σ → α → Prop} {Inv : σ → Prop}
    (hstep : ∀ s a s', step s a = some s' → ok s a → Inv s → Inv s') {s : σ} {as : List α}
    (hok : Allowed step ok s as) (hs : Inv s) : Always step Inv s as := by
  intro before after s₁ hsplit hrun
  refine run_invariant_of hstep hrun ?_ hs
  refine allowed_iff.mpr fun b a c t hb ht => allowed_iff.mp hok b a (c ++ after) t ?_ ht
  rw [hsplit, hb, List.append_assoc, List.cons_append]

/-- Allowed steps can be taken, and keep the invariant: so can a whole run of them. -/
theorem run_of_allowed {ok : σ → α → Prop} {Inv : σ → Prop}
    (hstep : ∀ s a, ok s a → Inv s → ∃ s', step s a = some s' ∧ Inv s') {s : σ} {as : List α}
    (hok : Allowed step ok s as) (hs : Inv s) : ∃ t, run step s as = some t ∧ Inv t := by
  induction as generalizing s with
  | nil => exact ⟨s, rfl, hs⟩
  | cons a as ih =>
    obtain ⟨s', ha, hs'⟩ := hstep s a hok.1 hs
    simp only [Allowed, ha] at hok
    simp only [run, ha]
    exact ih hok.2 hs'

theorem Always.mono {P Q : σ → Prop} (hPQ : ∀ s, P s → Q s) {s : σ} {as : List α}
    (h : Always step P s as) : Always step Q s as :=
  fun before after s₁ hsplit hrun => hPQ s₁ (h before after s₁ hsplit hrun)

theorem allowed_true (s : σ) (as : List α) : Allowed step (fun _ _ => True) s as :=
  allowed_iff.mpr fun _ _ _ _ _ _ => trivial

theorem always_iff_allowed {ok : σ → α → Prop} {Inv P : σ → Prop} (hP : ∀ s, Inv s → P s)
    (hstep : ∀ s a s', step s a = some s' → Inv s → (ok s a → Inv s') ∧ (P s' → ok s a))
    {s t : σ} {as : List α} (hrun : run step s as = some t) (hs : Inv s) :
    Always step P s as ↔ Allowed step ok s as :=
  always_iff_allowed_of hP (fun s a s' ha _ hi => hstep s a s' ha hi) hrun (allowed_true s as) hs

end CrustSworker.Runs

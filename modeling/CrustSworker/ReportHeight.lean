import CrustSworker.Report
import CrustSworker.Sha256
import Mathlib.Data.List.Chain

/-!
# Block heights over a lifetime of report calls

The only guard on the height is one subtraction in `size_t`. A height below the
recorded one wraps around and passes it, and every exit behind the guard records the
height that passed. The main theorem says that the recorded heights advance by whole
eras along a sequence of calls exactly when no call does that.
-/

namespace CrustSworker.ReportHeight

open Report

variable {τ : Type}

theorem heightExpired_eq_false {r h : UInt64} :
    heightExpired r h = false ↔ h ≠ 0 ∧ eraLength ≤ (2 ^ 64 - r.toNat + h.toNat) % 2 ^ 64 := by
  have hera : (UInt64.ofNat eraLength).toNat = eraLength := by decide
  simp only [heightExpired, Bool.or_eq_false_iff, decide_eq_false_iff_not,
    UInt64.lt_iff_toNat_lt, UInt64.toNat_sub, hera, ne_eq, Nat.not_lt]

@[simp] theorem settleReport_height (wl : Workload τ) (h : UInt64) :
    (settleReport wl h).reportHeight = h := rfl

@[simp] theorem handleReportResult_height (wl : Workload τ) :
    wl.handleReportResult.reportHeight = wl.reportHeight := rfl

section
variable (sha256 : Bytes → Hash) (mem : Mem)

theorem genWorkReport_height {env : ReportEnv} {wl : Workload τ} {blockHash : Bytes} {h : UInt64}
    {up : Bool} {res : GenResult τ} (hp : heightExpired wl.reportHeight h = false)
    (hr : genWorkReport sha256 mem env wl blockHash h up = some res) :
    res.2.1.reportHeight = h := by
  obtain hs | hs := (genWorkReport_outcome hp hr).settled
  · rw [hs, settleReport_height]
  · rw [hs, settleReport_height]

theorem genAndUpload_height {env : ReportEnv} {upload : Bytes → CrustStatus} {wl wl' : Workload τ}
    {blockHash : Bytes} {h : UInt64} {up : Bool} {st : CrustStatus}
    (hp : heightExpired wl.reportHeight h = false)
    (hr : genAndUploadWorkReport sha256 mem env upload wl blockHash h up = some (st, wl')) :
    wl'.reportHeight = h := by
  unfold genAndUploadWorkReport at hr
  split at hr
  · cases hr
  · rename_i wl1 r sig hg
    have h1 := genWorkReport_height sha256 mem hp hg
    dsimp only at h1 hr
    cases hr
    split_ifs
    · exact h1
    · exact h1
  · rename_i st1 wl1 o _ hg
    have h1 := genWorkReport_height sha256 mem hp hg
    cases hr
    exact h1

theorem genAndUpload_expired {env : ReportEnv} {upload : Bytes → CrustStatus} {wl : Workload τ}
    {blockHash : Bytes} {h : UInt64} {up : Bool} (hp : heightExpired wl.reportHeight h = true) :
    genAndUploadWorkReport sha256 mem env upload wl blockHash h up =
      some (.blockHeightExpired, wl) := by
  simp [genAndUploadWorkReport, genWorkReport, hp]

end

/-- One call of the ecall, after whatever else the enclave did since the previous
one; nothing but a report or a restore changes the recorded height. -/
structure Call (τ : Type) where
  idle : Workload τ → Workload τ
  idle_height : ∀ wl, (idle wl).reportHeight = wl.reportHeight
  env : ReportEnv
  upload : Bytes → CrustStatus
  blockHash : Bytes
  blockHeight : UInt64

def Call.passes (c : Call τ) (wl : Workload τ) : Bool :=
  decide (wl.upgradeStatus ≠ .process) && !heightExpired wl.reportHeight c.blockHeight

/-- The call reaches the height check with a height below the recorded one, by no
more than the subtraction can hide. -/
def Call.Backward (c : Call τ) (wl : Workload τ) : Prop :=
  wl.upgradeStatus ≠ .process ∧ c.blockHeight ≠ 0 ∧
    c.blockHeight.toNat < wl.reportHeight.toNat ∧
    wl.reportHeight.toNat - c.blockHeight.toNat ≤ 2 ^ 64 - eraLength

def GapEra (a b : UInt64) : Prop := a.toNat + eraLength ≤ b.toNat

instance (a b : UInt64) : Decidable (GapEra a b) := inferInstanceAs (Decidable (_ ≤ _))

theorem Call.passes_of_backward {c : Call τ} {wl : Workload τ} (hb : c.Backward wl) :
    c.passes wl = true := by
  obtain ⟨hs, h0, hlt, hle⟩ := hb
  have hr := wl.reportHeight.toNat_lt
  have he : heightExpired wl.reportHeight c.blockHeight = false := by
    rw [heightExpired_eq_false]
    refine ⟨h0, ?_⟩
    simp only [eraLength] at hle ⊢
    omega
  simp [Call.passes, hs, he]

theorem Call.gap_iff {c : Call τ} {wl : Workload τ} (hp : c.passes wl = true) :
    GapEra wl.reportHeight c.blockHeight ↔ ¬ c.Backward wl := by
  simp only [Call.passes, Bool.and_eq_true, decide_eq_true_eq, Bool.not_eq_true',
    heightExpired_eq_false] at hp
  obtain ⟨hs, h0, hge⟩ := hp
  have hr := wl.reportHeight.toNat_lt
  have hc := c.blockHeight.toNat_lt
  simp only [Call.Backward, GapEra, eraLength] at hge ⊢
  constructor
  · rintro hgap ⟨-, -, hlt, -⟩
    omega
  · intro hnb
    by_contra hgap
    exact hnb ⟨hs, h0, by omega, by omega⟩

section
variable (sha256 : Bytes → Hash) (mem : Mem)

def Call.exec (c : Call τ) (wl : Workload τ) : Option (CrustStatus × Workload τ) :=
  ecallGenAndUploadWorkReport sha256 mem c.env c.upload wl c.blockHash c.blockHeight

/-- What a sequence of calls shows: the heights that got past the check, and the
recorded height after each call. An abort of the enclave ends the sequence. -/
def trace : Workload τ → List (Call τ) → List UInt64 × List UInt64
  | _, [] => ([], [])
  | wl, c :: cs =>
    let wl := c.idle wl
    let passed := if c.passes wl then [c.blockHeight] else []
    match c.exec sha256 mem wl with
    | none => (passed, [])
    | some (_, wl') =>
      let rest := trace wl' cs
      (passed ++ rest.1, wl'.reportHeight :: rest.2)

def Forward : Workload τ → List (Call τ) → Prop
  | _, [] => True
  | wl, c :: cs =>
    ¬ c.Backward (c.idle wl) ∧
      match c.exec sha256 mem (c.idle wl) with
      | none => True
      | some (_, wl') => Forward wl' cs

theorem Call.exec_refused {c : Call τ} {wl : Workload τ} (hp : c.passes wl = false) :
    ∃ st, c.exec sha256 mem wl = some (st, wl) := by
  unfold Call.exec ecallGenAndUploadWorkReport
  by_cases hs : wl.upgradeStatus = .process
  · exact ⟨_, if_pos hs⟩
  · rw [if_neg hs]
    simp only [Call.passes, hs, ne_eq, not_false_eq_true, decide_true, Bool.true_and,
      Bool.not_eq_false'] at hp
    exact ⟨_, genAndUpload_expired sha256 mem hp⟩

theorem Call.exec_height {c : Call τ} {wl wl' : Workload τ} {st : CrustStatus}
    (hp : c.passes wl = true) (hr : c.exec sha256 mem wl = some (st, wl')) :
    wl'.reportHeight = c.blockHeight := by
  simp only [Call.passes, Bool.and_eq_true, decide_eq_true_eq, Bool.not_eq_true'] at hp
  unfold Call.exec ecallGenAndUploadWorkReport at hr
  rw [if_neg hp.1] at hr
  exact genAndUpload_height sha256 mem hp.2 hr

theorem trace_chain_iff (wl : Workload τ) (cs : List (Call τ)) :
    (wl.reportHeight :: (trace sha256 mem wl cs).1).IsChain GapEra ∧
      (wl.reportHeight :: (trace sha256 mem wl cs).2).IsChain (· ≤ ·) ↔
    Forward sha256 mem wl cs := by
  induction cs generalizing wl with
  | nil => simp [trace, Forward]
  | cons c cs ih =>
    have hi := c.idle_height wl
    cases hp : c.passes (c.idle wl) with
    | false =>
      obtain ⟨st, he⟩ := c.exec_refused sha256 mem hp
      have hnb : ¬ c.Backward (c.idle wl) := by
        intro hb
        rw [c.passes_of_backward hb] at hp
        cases hp
      have ih' := ih (c.idle wl)
      rw [hi] at ih'
      simp only [trace, Forward, hp, he, hnb, hi, not_false_eq_true, true_and,
        Bool.false_eq_true, ↓reduceIte, List.nil_append, List.isChain_cons_cons, UInt64.le_refl]
      exact ih'
    | true =>
      have hgap := c.gap_iff hp
      rw [hi] at hgap
      cases he : c.exec sha256 mem (c.idle wl) with
      | none =>
        simp only [trace, Forward, hp, he, ↓reduceIte, List.isChain_cons_cons,
          List.isChain_singleton, and_true]
        exact hgap
      | some res =>
        obtain ⟨st, wl'⟩ := res
        have hh := c.exec_height sha256 mem hp he
        have ih' := ih wl'
        rw [hh] at ih'
        have hle : GapEra wl.reportHeight c.blockHeight → wl.reportHeight ≤ c.blockHeight := by
          intro hg
          rw [UInt64.le_iff_toNat_le]
          simp only [GapEra] at hg
          omega
        simp only [trace, Forward, hp, he, hh, ↓reduceIte, List.singleton_append,
          List.isChain_cons_cons, ← ih', ← hgap]
        tauto

theorem trace_head (wl : Workload τ) (cs : List (Call τ)) (h0 : wl.reportHeight = 0) :
    ∀ h ∈ (trace sha256 mem wl cs).1.head?, GapEra 0 h := by
  induction cs generalizing wl with
  | nil => simp [trace]
  | cons c cs ih =>
    have hi := (c.idle_height wl).trans h0
    cases hp : c.passes (c.idle wl) with
    | false =>
      obtain ⟨st, he⟩ := c.exec_refused sha256 mem hp
      simpa [trace, hp, he] using ih (c.idle wl) hi
    | true =>
      have hgap : GapEra 0 c.blockHeight := by
        have h := (c.gap_iff hp).mpr
        rw [hi] at h
        refine h ?_
        rintro ⟨-, -, hlt, -⟩
        rw [hi] at hlt
        exact Nat.not_lt_zero _ hlt
      intro h hm
      have : h = c.blockHeight := by
        cases he : c.exec sha256 mem (c.idle wl) <;> simp_all [trace]
      rw [this]
      exact hgap

def Advances (start : UInt64) (t : List UInt64 × List UInt64) : Prop :=
  t.1.IsChain GapEra ∧ (start :: t.2).IsChain (· ≤ ·)

theorem reports_advance_iff_forward (keys : KeyPair) (pre : PubKey) (cs : List (Call τ)) :
    Advances 0 (trace sha256 mem (Workload.init keys pre) cs) ↔
      Forward sha256 mem (Workload.init keys pre) cs := by
  have hinit : (Workload.init keys pre : Workload τ).reportHeight = 0 := rfl
  have hhead := trace_head sha256 mem (Workload.init keys pre) cs hinit
  rw [← trace_chain_iff, hinit, List.isChain_cons]
  unfold Advances
  tauto

end

def callAt (h : UInt64) : Call Unit where
  idle := id
  idle_height := fun _ => rfl
  env := ⟨true, true, true, true, true, fun _ _ => none⟩
  upload := fun _ => .success
  blockHash := []
  blockHeight := h

theorem reports_go_backward :
    ¬ Advances 0 (trace Sha256.sha256 ⟨fun _ _ => 0⟩
      (Workload.init ⟨⟨List.replicate 64 0, rfl⟩, ⟨List.replicate 32 0, rfl⟩⟩
        ⟨List.replicate 64 0, rfl⟩) [callAt 1000, callAt 500]) := by
  have ht : trace Sha256.sha256 ⟨fun _ _ => 0⟩
      (Workload.init ⟨⟨List.replicate 64 0, rfl⟩, ⟨List.replicate 32 0, rfl⟩⟩
        ⟨List.replicate 64 0, rfl⟩) [callAt 1000, callAt 500] = ([1000, 500], [1000, 500]) := by
    decide +kernel
  rw [ht]
  rintro ⟨hgap, -⟩
  have h := (List.isChain_cons_cons.mp hgap).1
  exact absurd h (by decide)

end CrustSworker.ReportHeight

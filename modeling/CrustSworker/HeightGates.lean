import CrustSworker.Surface

/-!
# The height tests of an upgrade

`try_report_work`, the two tests of `id_gen_upgrade_data` with the loop behind them, and the test
of `gen_work_report`. The heights are unsigned, and the subtraction of the report interval wraps
around when less than the interval has passed since the last report: then the tests of the
upgrade pass and the loop stays at the height that was already reported. `try_report_work`
does not compare the heights first, so it also passes when the block is behind the report.
-/

namespace CrustSworker.HeightGates

open Report Upgrade Surface

variable {τ : Type}

/-! ### The loop -/

section
variable {blockHeight height : UInt64}

theorem toNat_add_era (h : height ≤ blockHeight)
    (hgt : blockHeight - height > UInt64.ofNat eraLength) :
    (height + UInt64.ofNat eraLength).toNat = height.toNat + eraLength ∧
      height.toNat + eraLength < blockHeight.toNat := by
  have hera : (UInt64.ofNat eraLength).toNat = eraLength := rfl
  have hlt := blockHeight.toNat_lt
  rw [gt_iff_lt, UInt64.lt_iff_toNat_lt, UInt64.toNat_sub_of_le _ _ h, hera] at hgt
  refine ⟨?_, by omega⟩
  rw [UInt64.toNat_add, hera]
  omega

theorem eraLoop_fuel {fuel : Nat} (h : height ≤ blockHeight)
    (hf : blockHeight.toNat ≤ height.toNat + eraLength * (fuel + 1)) :
    eraLoop blockHeight (fuel + 1) height = eraLoop blockHeight fuel height := by
  induction fuel generalizing height with
  | zero =>
    have hstop : ¬ blockHeight - height > UInt64.ofNat eraLength := by
      intro hgt
      have := (toNat_add_era h hgt).2
      omega
    simp only [eraLoop, if_neg hstop]
  | succ fuel ih =>
    conv_lhs => rw [eraLoop]
    conv_rhs => rw [eraLoop]
    split_ifs with hgt
    · obtain ⟨hadd, hlt⟩ := toNat_add_era h hgt
      refine ih ?_ ?_
      · rw [UInt64.le_iff_toNat_le, hadd]
        omega
      · have hmul : eraLength * (fuel + 1 + 1) = eraLength * (fuel + 1) + eraLength :=
          Nat.mul_succ _ _
        rw [hadd]
        omega
    · rfl

theorem eraLoop_rounds (fuel : Nat) (h : height < blockHeight) :
    height ≤ eraLoop blockHeight fuel height ∧ eraLoop blockHeight fuel height < blockHeight ∧
      (eraLoop blockHeight fuel height).toNat % eraLength = height.toNat % eraLength := by
  induction fuel generalizing height with
  | zero => exact ⟨UInt64.le_refl _, h, rfl⟩
  | succ fuel ih =>
    rw [eraLoop]
    split_ifs with hgt
    · obtain ⟨hadd, hlt⟩ := toNat_add_era (UInt64.le_of_lt h) hgt
      have hnext : height + UInt64.ofNat eraLength < blockHeight := by
        rw [UInt64.lt_iff_toNat_lt, hadd]
        exact hlt
      obtain ⟨hge, hlt', hmod⟩ := ih hnext
      refine ⟨?_, hlt', hmod.trans ?_⟩
      · rw [UInt64.le_iff_toNat_le] at hge ⊢
        omega
      · rw [hadd]
        exact Nat.add_mod_right _ _
    · exact ⟨UInt64.le_refl _, h, rfl⟩

end

/-! ### The tests -/

def TryPasses (wl : Workload τ) (blockHeight : UInt64) : Prop :=
  tryReportWork wl blockHeight ≠ .upgradeBlockExpire

def GenPasses (env : GenDataEnv) (wl : Workload τ) (blockHeight : UInt64) : Prop :=
  reportTarget env wl blockHeight ≠ .error .unexpectedError ∧
    reportTarget env wl blockHeight ≠ .error .upgradeWaitForNextEra

def lastEra (wl : Workload τ) (blockHeight : UInt64) : UInt64 :=
  eraLoop blockHeight blockHeight.toNat wl.reportHeight

structure RoundsDown (wl : Workload τ) (blockHeight : UInt64) : Prop where
  terminates : ∀ fuel, blockHeight.toNat ≤ fuel →
    eraLoop blockHeight fuel wl.reportHeight = lastEra wl blockHeight
  above : wl.reportHeight.toNat + eraLength ≤ (lastEra wl blockHeight).toNat
  below : (lastEra wl blockHeight).toNat < blockHeight.toNat
  near : blockHeight.toNat - (lastEra wl blockHeight).toNat ≤ eraLength
  congruent : (lastEra wl blockHeight).toNat % eraLength = wl.reportHeight.toNat % eraLength

structure GatesAgree (sha256 : Bytes → Hash) (mem : Mem) (wl : Workload τ) (blockHeight : UInt64) :
    Prop where
  try_late : TryPasses wl blockHeight →
    wl.reportHeight.toNat + eraLength + workreportReportInterval ≤ blockHeight.toNat
  rounds : ∀ env, GenPasses env wl blockHeight → RoundsDown wl blockHeight
  accepted : ∀ env height hash, reportTarget env wl blockHeight = .ok (height, hash) →
    height = lastEra wl blockHeight ∧
      ∀ r, genWorkReport sha256 mem env.report wl hash height false = some r →
        r.1 ≠ .blockHeightExpired

/-- The interval is over, or the subtraction wraps around into the era. -/
def waited (reportHeight blockHeight : UInt64) : Bool :=
  decide (blockHeight = 0) ||
    decide (reportHeight.toNat + workreportReportInterval ≤ blockHeight.toNat) ||
    (decide (blockHeight < reportHeight) &&
      decide (workreportReportInterval ≤ (blockHeight - reportHeight).toNat) &&
      decide ((blockHeight - reportHeight).toNat < workreportReportInterval + eraLength))

/-! ### Each test as an inequality -/

section
variable {wl : Workload τ} {blockHeight : UInt64}

theorem tryPasses_iff : TryPasses wl blockHeight ↔ blockHeight ≠ 0 ∧
    ¬ blockHeight - wl.reportHeight - UInt64.ofNat workreportReportInterval <
      UInt64.ofNat eraLength := by
  unfold TryPasses tryReportWork
  rw [← not_or]
  split_ifs with h
  · simp [h]
  · simp [h]
  · simp [h]
  · simp [h]
  · simp [h]

theorem genPasses_iff {env : GenDataEnv} : GenPasses env wl blockHeight ↔
    wl.reportHeight < blockHeight ∧
    ¬ blockHeight - wl.reportHeight - UInt64.ofNat workreportReportInterval <
      UInt64.ofNat eraLength := by
  rw [← UInt64.not_le]
  unfold GenPasses reportTarget
  split_ifs with hle hlt hm
  · simp [hle]
  · simp [hle, hlt]
  · dsimp only
    split
    · simp [hle, hlt]
    · simp [hle, hlt]
  · simp [hle, hlt]

theorem interval_test (d : UInt64) : ¬ d - UInt64.ofNat workreportReportInterval <
    UInt64.ofNat eraLength ↔
      d.toNat < workreportReportInterval ∨ workreportReportInterval + eraLength ≤ d.toNat := by
  have hi : (UInt64.ofNat workreportReportInterval).toNat = workreportReportInterval := rfl
  have he : (UInt64.ofNat eraLength).toNat = eraLength := rfl
  have hd := d.toNat_lt
  rw [UInt64.lt_iff_toNat_lt, UInt64.toNat_sub, hi, he]
  simp only [workreportReportInterval, eraLength]
  omega

theorem roundsDown_of_late (h : wl.reportHeight.toNat + workreportReportInterval + eraLength ≤
    blockHeight.toNat) : RoundsDown wl blockHeight := by
  have hlt : wl.reportHeight < blockHeight := by
    rw [UInt64.lt_iff_toNat_lt]
    simp only [workreportReportInterval, eraLength] at h
    omega
  have hle := UInt64.le_of_lt hlt
  have henough : ∀ fuel, blockHeight.toNat ≤ fuel →
      blockHeight.toNat ≤ wl.reportHeight.toNat + eraLength * (fuel + 1) := by
    intro fuel hf
    simp only [eraLength]
    omega
  obtain ⟨-, hnear⟩ := eraLoop_spec blockHeight blockHeight.toNat hle (henough _ (Nat.le_refl _))
  obtain ⟨hge, hbelow, hmod⟩ := eraLoop_rounds blockHeight.toNat hlt
  rw [UInt64.le_iff_toNat_le] at hge
  rw [UInt64.lt_iff_toNat_lt] at hbelow
  refine ⟨fun fuel hf => ?_, ?_, hbelow, hnear, hmod⟩
  · induction fuel, hf using Nat.le_induction with
    | base => rfl
    | succ fuel hf ih => rw [eraLoop_fuel hle (henough fuel hf), ih]
  · -- The loop cannot end where it began: that is further from the block than an era.
    simp only [lastEra, workreportReportInterval, eraLength] at h hnear hmod ⊢
    omega

theorem not_roundsDown (h : blockHeight.toNat < wl.reportHeight.toNat + workreportReportInterval) :
    ¬ RoundsDown wl blockHeight := by
  intro hr
  have habove := hr.above
  have hbelow := hr.below
  simp only [workreportReportInterval, eraLength] at h habove
  omega

end

section
variable {sha256 : Bytes → Hash} {mem : Mem} {wl : Workload τ} {blockHeight : UInt64}

theorem genWorkReport_not_expired {env : ReportEnv} {blockHash : Bytes} {up : Bool}
    {r : GenResult τ} (h : heightExpired wl.reportHeight blockHeight = false)
    (hr : genWorkReport sha256 mem env wl blockHash blockHeight up = some r) :
    r.1 ≠ .blockHeightExpired := by
  unfold genWorkReport at hr
  rw [if_neg (by simp [h])] at hr
  split at hr
  · obtain ⟨res, hc, rfl⟩ := Option.map_eq_some_iff.mp hr
    unfold composeReport at hc
    dsimp only at hc
    split_ifs at hc
    · cases hc
      simp
    · split at hc
      · cases hc
      cases hc
      unfold signReport
      split_ifs
      · split
        · simp
        · simp
      · simp
      · simp
      · simp
    · cases hc
      simp
  · cases hr
    unfold reportCondition
    split_ifs
    · simp
    · simp
    · simp
    · simp

theorem reportTarget_height {env : GenDataEnv} {height : UInt64} {hash : Bytes}
    (h : reportTarget env wl blockHeight = .ok (height, hash)) :
    GenPasses env wl blockHeight ∧ height = lastEra wl blockHeight := by
  refine ⟨⟨?_, ?_⟩, ?_⟩
  · rw [h]
    exact fun hc => by cases hc
  · rw [h]
    exact fun hc => by cases hc
  · unfold reportTarget at h
    split_ifs at h
    dsimp only at h
    split at h
    · cases h
      rfl
    · cases h

theorem RoundsDown.not_expired (h : RoundsDown wl blockHeight) :
    heightExpired wl.reportHeight (lastEra wl blockHeight) = false := by
  have habove := h.above
  have hle : wl.reportHeight ≤ lastEra wl blockHeight := by
    rw [UInt64.le_iff_toNat_le]
    omega
  have hera : (UInt64.ofNat eraLength).toNat = eraLength := rfl
  simp only [heightExpired, Bool.or_eq_false_iff, decide_eq_false_iff_not]
  constructor
  · intro h0
    rw [h0] at habove
    simp only [UInt64.toNat_zero, eraLength] at habove
    omega
  · rw [UInt64.lt_iff_toNat_lt, UInt64.toNat_sub_of_le _ _ hle, hera]
    omega

theorem waited_iff (r h : UInt64) : waited r h = true ↔ h = 0 ∨
    r.toNat + workreportReportInterval ≤ h.toNat ∨
    (h < r ∧ workreportReportInterval ≤ (h - r).toNat ∧
      (h - r).toNat < workreportReportInterval + eraLength) := by
  simp [waited, and_assoc, or_assoc]

/-- The gates agree exactly when the report interval has passed, apart from heights so far
behind the report that the subtraction wraps into the era. -/
theorem gates_agree_iff (sha256 : Bytes → Hash) (mem : Mem) (wl : Workload τ) (blockHeight : UInt64) :
    GatesAgree sha256 mem wl blockHeight ↔ waited wl.reportHeight blockHeight = true := by
  have hh := blockHeight.toNat_lt
  have hr := wl.reportHeight.toNat_lt
  have hzero : blockHeight = 0 ↔ blockHeight.toNat = 0 := UInt64.toNat_inj.symm
  have hsub : (blockHeight - wl.reportHeight).toNat =
      (2 ^ 64 - wl.reportHeight.toNat + blockHeight.toNat) % 2 ^ 64 := UInt64.toNat_sub _ _
  rw [waited_iff]
  constructor
  · intro h
    have htry := h.try_late
    have hrounds : ∀ env : GenDataEnv, GenPasses env wl blockHeight →
        wl.reportHeight.toNat + workreportReportInterval ≤ blockHeight.toNat :=
      fun env hp => Nat.le_of_not_lt fun hlt => not_roundsDown hlt (h.rounds env hp)
    rw [tryPasses_iff, interval_test, ne_eq, hzero] at htry
    rw [hzero, UInt64.lt_iff_toNat_lt]
    simp only [hsub, workreportReportInterval, eraLength] at htry ⊢
    omega
  · intro hw
    have hlate : ∀ env : GenDataEnv, GenPasses env wl blockHeight → RoundsDown wl blockHeight := by
      intro env hp
      refine roundsDown_of_late ?_
      rw [genPasses_iff, interval_test, UInt64.lt_iff_toNat_lt] at hp
      rw [hzero, UInt64.lt_iff_toNat_lt] at hw
      simp only [hsub, workreportReportInterval, eraLength] at hp hw ⊢
      omega
    refine ⟨fun htry => ?_, hlate, fun env height hash htarget => ?_⟩
    · rw [tryPasses_iff, interval_test, ne_eq, hzero] at htry
      rw [hzero, UInt64.lt_iff_toNat_lt] at hw
      simp only [hsub, workreportReportInterval, eraLength] at htry hw ⊢
      omega
    · obtain ⟨hp, rfl⟩ := reportTarget_height htarget
      exact ⟨rfl, fun r hres => genWorkReport_not_expired (hlate env hp).not_expired hres⟩

end

/-! ### Five blocks after a report -/

/-- Both tests of the upgrade pass, and the loop stays at the height of the last report. -/
theorem early_height_passes :
    ∃ wl : Workload Unit, wl.reportHeight = 600 ∧ TryPasses wl 605 ∧ GenPasses openGen wl 605 ∧
      lastEra wl 605 = 600 ∧ ¬ GatesAgree Sha256.sha256 Metadata.plainMem wl 605 := by
  have hgen : GenPasses openGen { Seal.freshWorkload with reportHeight := 600 } 605 := by
    rw [genPasses_iff]
    decide
  have hera : lastEra { Seal.freshWorkload with reportHeight := 600 } 605 = 600 := by decide
  refine ⟨{ Seal.freshWorkload with reportHeight := 600 }, rfl, ?_, hgen, hera, fun h => ?_⟩
  · rw [tryPasses_iff]
    decide
  · have habove := (h.rounds openGen hgen).above
    rw [hera] at habove
    exact absurd habove (by decide)

end CrustSworker.HeightGates

import CrustSworker.Surface

/-!
# What a report depends on

The upgrade status, the validated proofs, the file flag and the restart flag. Each operation
gets a lemma on what it does to them.
-/

namespace CrustSworker.Surface

open Report Upgrade UpgradeReport

variable {τ : Type}

/-! ### The flags of the workload -/

/-- What the reports and the tests of the ecalls depend on. -/
structure Flags where
  status : EncUpgradeStatus
  proof : Nat
  files : Bool
  restart : Bool

def flagsOf (wl : Workload τ) : Flags :=
  ⟨wl.upgradeStatus, wl.validatedProof, wl.reportFiles, wl.restartFlag⟩

theorem flagsOf_settleChanged (wl : Workload τ) (changed : List (Nat × Bool)) :
    flagsOf (Validator.settleChanged wl changed) = flagsOf wl := by
  obtain ⟨info, h⟩ := Validator.settleChanged_eq wl changed
  rw [h]
  rfl

theorem flagsOf_confirm (wl : Workload τ) (hash : Bytes) :
    flagsOf (Storage.storageConfirmFile wl hash) = flagsOf wl := by
  obtain ⟨checked, new, info, h⟩ := Storage.storageConfirmFile_eq wl hash
  rw [h]
  rfl

theorem flagsOf_delete (wl : Workload τ) (hash : Bytes) :
    flagsOf (Storage.storageDeleteFile wl hash) = flagsOf wl := by
  obtain ⟨checked, new, info, h⟩ := Storage.storageDeleteFile_eq wl hash
  rw [h]
  rfl

theorem flagsOf_genKeyPair (env : Metadata.KeyEnv) (wl : Workload τ) (accountId : Option Bytes) :
    flagsOf (Metadata.idGenKeyPair env wl accountId).2 = flagsOf wl := by
  unfold Metadata.idGenKeyPair
  split
  · rfl
  cases accountId with
  | none => rfl
  | some id =>
    dsimp only
    split_ifs
    · rfl
    · rfl
    · rfl
    · rfl

theorem flagsOf_srdIncrease (sha256 : Bytes → Hash) (env : Srd.IncreaseEnv) (wl : Workload τ)
    (path : Bytes) : flagsOf (Srd.srdIncrease sha256 env wl path) = flagsOf wl := by
  unfold Srd.srdIncrease
  split
  · rfl
  · rfl

section
variable {sha256 : Bytes → Hash} {mem : Mem} {wl wl' : Workload τ}

theorem flagsOf_srdDecrease {answer : Nat → CrustStatus} {change : Int} {del : Srd.DelIndex}
    {r : Nat × Workload τ} (h : Srd.srdDecrease mem answer wl change del = some r) :
    flagsOf r.2 = flagsOf wl := by
  unfold Srd.srdDecrease at h
  dsimp only at h
  split_ifs at h
  · cases h
    rfl
  · obtain ⟨q, -, rfl⟩ := Option.map_eq_some_iff.mp h
    rfl

theorem flagsOf_randomDelete {answer : Nat → CrustStatus} {failed : Srd.DelIndex}
    (h : srdRandomDelete mem answer wl failed = some wl') : flagsOf wl' = flagsOf wl := by
  unfold srdRandomDelete at h
  dsimp only at h
  split_ifs at h
  · cases h
    rfl
  · obtain ⟨r, hr, rfl⟩ := Option.map_eq_some_iff.mp h
    exact flagsOf_srdDecrease hr

theorem flagsOf_srdUpdate {answer : Nat → CrustStatus} {hashs : Bytes}
    (h : Srd.srdUpdateMetadata mem answer wl hashs = some wl') : flagsOf wl' = flagsOf wl := by
  unfold Srd.srdUpdateMetadata at h
  split at h
  · cases h
  · cases h
    rfl

theorem flagsOf_sealFile {env : Seal.SealEnv} {tag : τ} {treeText path : Bytes}
    {r : Seal.SealResult τ} (h : Seal.storageSealFile sha256 mem env tag wl treeText path = some r) :
    flagsOf r.wl = flagsOf wl := by
  by_cases hs : r.status = .success
  · obtain ⟨_, _, _, _, _, -, -, -, -, -, hwl⟩ := Seal.storageSealFile_success h hs
    rw [hwl]
    rfl
  · rw [Seal.storageSealFile_failed h hs]

theorem flagsOf_checkFile {env : Validator.CheckEnv} {p p' : Validator.Pass τ} {i : Nat}
    (h : Validator.checkFile sha256 mem env p i = some p') :
    flagsOf p'.wl = flagsOf p.wl ∨ flagsOf p'.wl = { flagsOf p.wl with files := false } := by
  unfold Validator.checkFile at h
  split at h
  · cases h
    exact .inl rfl
  split at h
  · cases h
  · cases h
    exact .inr rfl
  · cases h
    exact .inl rfl

theorem flagsOf_restoreWorkload (env : UpgradeEnv) (tagOf : Nat → τ) (wl : Workload τ)
    (doc : JSON) : flagsOf (restoreWorkload env tagOf wl doc).2 = flagsOf wl := by
  unfold restoreWorkload Workload.restoreSrd
  cases Workload.restorePaths env.mallocHash (doc.get upgradeSrd).objectRange [] with
  | none => rfl
  | some m =>
    dsimp only
    rw [restoreFile_eq]
    rfl

theorem flagsOf_restoreSpec {env : Metadata.RestoreEnv}
    (h : Metadata.restoreSpec mem env wl = some wl') : flagsOf wl' = flagsOf wl := by
  unfold Metadata.restoreSpec at h
  split at h
  · split at h
    · cases h
    · cases h
      rfl
  · cases h
    rfl

theorem flagsOf_restoreSrdIn (env : Metadata.RestoreEnv) (wl : Workload τ) (doc : JSON) :
    flagsOf (Metadata.restoreSrdIn env wl doc).2 = flagsOf wl := by
  unfold Metadata.restoreSrdIn Workload.restoreSrd
  split_ifs
  · cases Workload.restorePaths env.mallocHash (doc.get idWorkload).objectRange [] with
    | none => simp only [flagsOf]
    | some m => simp only [flagsOf]
  · rfl

theorem flagsOf_restoreFilesIn (tagOf : Nat → τ) (wl : Workload τ) (doc : JSON) :
    flagsOf (Metadata.restoreFilesIn tagOf wl doc) = flagsOf wl := by
  unfold Metadata.restoreFilesIn
  split
  · rfl
  · rfl

theorem flagsOf_restoreContents {env : Metadata.RestoreEnv} {tagOf : Nat → τ} {doc : JSON} {b : Bool}
    (h : Metadata.restoreContents mem tagOf env wl doc = some (b, wl')) :
    flagsOf wl' = flagsOf wl := by
  unfold Metadata.restoreContents at h
  split at h
  · cases h
  rename_i wl₁ hspec
  have hsrd := flagsOf_restoreSrdIn env wl₁ doc
  split at h
  · rename_i wl₂ hs
    cases h
    rw [hs] at hsrd
    exact hsrd.trans (flagsOf_restoreSpec hspec)
  · rename_i wl₂ hs
    cases h
    rw [hs] at hsrd
    exact (flagsOf_restoreFilesIn tagOf wl₂ doc).trans (hsrd.trans (flagsOf_restoreSpec hspec))

theorem flagsOf_restoreIdentity (mem : Mem) (env : Metadata.RestoreEnv) (wl : Workload τ)
    (doc : JSON) :
    flagsOf (Metadata.restoreIdentity mem env wl doc).2 =
      { flagsOf wl with
        restart := wl.restartFlag ||
          decide ((Metadata.restoreIdentity mem env wl doc).1 = .success) } := by
  unfold Metadata.restoreIdentity
  cases Metadata.keyPairIn mem doc with
  | none => simp [flagsOf]
  | some k =>
    by_cases hm : env.mallocKey = true
    · by_cases hp : doc.hasKey idPrePubKey = true
      · cases hexStringToBytes (doc.get idPrePubKey).toStr with
        | none => simp [hm, hp, flagsOf, Workload.setKeyPair]
        | some u =>
          by_cases hq : env.mallocPreKey = true
          · simp [hm, hp, hq, flagsOf, Workload.setKeyPair, Workload.setUpgrade]
          · simp [hm, hp, hq, flagsOf, Workload.setKeyPair]
      · simp [hm, hp, flagsOf, Workload.setKeyPair]
    · simp [hm, flagsOf]

theorem flagsOf_restoreMetadata {tagOf : Nat → τ} {env : Metadata.RestoreEnv} {data : Option Bytes}
    {r : CrustStatus × Workload τ} (h : Metadata.idRestoreMetadata mem tagOf env wl data = some r) :
    flagsOf r.2 = { flagsOf wl with restart := wl.restartFlag || decide (r.1 = .success) } := by
  unfold Metadata.idRestoreMetadata at h
  split at h
  · cases h
  split_ifs at h
  · cases h
    simp [flagsOf]
  split at h
  · cases h
  · rename_i wl₁ hc
    cases h
    rw [flagsOf_restoreContents hc]
    simp [flagsOf]
  · rename_i doc _ wl₁ hc
    cases h
    have hflags := flagsOf_restoreContents hc
    have hrestart : wl₁.restartFlag = wl.restartFlag := congrArg Flags.restart hflags
    rw [flagsOf_restoreIdentity, hflags, hrestart]

/-! ### Reports and documents -/

theorem flagsOf_composeReport {env : ReportEnv} {blockHash : Bytes} {blockHeight : UInt64} {up : Bool}
    {r : GenResult τ} (h : composeReport sha256 mem env wl blockHash blockHeight up = some r) :
    flagsOf r.2.1 = flagsOf wl := by
  unfold composeReport at h
  dsimp only at h
  split_ifs at h
  · cases h
    rfl
  · split at h
    · cases h
    rename_i hs hhs
    cases h
    rcases signReport_cases env (afterScan wl (scanFiles up (eraseGone wl.checkedFiles)))
      (buildReport sha256 mem (afterScan wl (scanFiles up (eraseGone wl.checkedFiles))) blockHash
        blockHeight (scanFiles up (eraseGone wl.checkedFiles)) hs) with ⟨status, -, hr⟩ | ⟨sig, hr⟩
    · rw [hr]
      rfl
    · rw [hr]
      rfl
  · cases h
    rfl

section
variable {verify : Verify} {tagOf : Nat → τ} {env : UpgradeEnv} {doc : JSON}

theorem checkDocument_flags {v : Verdict}
    (h : checkDocument sha256 mem verify env tagOf wl doc = some (v, wl')) :
    flagsOf wl' = flagsOf wl := by
  rcases checkDocument_cases h with ⟨-, rfl⟩ | ⟨-, rfl⟩
  · rfl
  · exact flagsOf_restoreWorkload env tagOf wl doc

theorem flagsOf_documentCall {hash : Bytes} {height : UInt64}
    (h : documentCall sha256 mem verify env tagOf wl doc = some (wl', hash, height)) :
    flagsOf wl' = flagsOf wl.reportAddValidatedProof := by
  unfold documentCall at h
  split at h
  · rename_i key wl₁ hcheck
    split_ifs at h
    cases h
    have hflags := checkDocument_flags hcheck
    simp only [flagsOf, Flags.mk.injEq] at hflags
    simp only [flagsOf, Workload.reportAddValidatedProof, Workload.setUpgrade, hflags]
  · cases h

theorem restoreDocument_flags {reply : Reply}
    (hcall : documentCall sha256 mem verify env tagOf wl doc = none)
    (h : restoreDocument sha256 mem verify tagOf env wl doc = some (reply, wl')) :
    flagsOf wl' = flagsOf wl := by
  unfold documentCall at hcall
  unfold restoreDocument at h
  split at h
  · cases h
  · rename_i hcheck
    cases h
    exact checkDocument_flags hcheck
  · rename_i key wl₁ hcheck
    simp only [hcheck] at hcall
    split_ifs at hcall with hnet
    simp only [enterNetwork, if_pos hnet] at h
    cases h
    have hflags := checkDocument_flags hcheck
    exact hflags

theorem restoreDocument_report {hash : Bytes} {height : UInt64}
    (h : documentCall sha256 mem verify env tagOf wl doc = some (wl', hash, height)) :
    restoreDocument sha256 mem verify tagOf env wl doc =
      (genAndUploadWorkReport sha256 mem env.report env.upload wl' hash height true).map fun r =>
        (⟨r.1, false⟩, r.2) := by
  unfold documentCall at h
  split at h
  · rename_i key wl₁ hcheck
    split_ifs at h with hnet
    cases h
    simp only [restoreDocument, hcheck, enterNetwork, if_neg hnet]
    cases genAndUploadWorkReport sha256 mem env.report env.upload
      (wl₁.setUpgrade key).reportAddValidatedProof (hashText doc)
      (UInt64.ofNat (sizeT (atoi (heightText doc)))) true with
    | none => rfl
    | some r => rfl
  · cases h

end

section
variable {verify : Verify} {tagOf : Nat → τ} {s : Upgrade.State τ} {c : Call}

theorem flagsOf_reportCall {hash : Bytes} {height : UInt64}
    (h : reportCall sha256 mem verify tagOf s c = some (wl, hash, height)) :
    flagsOf wl = flagsOf s.wl.reportAddValidatedProof := by
  unfold reportCall at h
  by_cases hm : s.received.length = 0 ∧ ¬ encMalloc c.mallocBuffer c.totalSize = true
  · rw [if_pos hm] at h
    cases h
  rw [if_neg hm] at h
  by_cases hend : c.transferEnd = true
  · rw [if_neg (not_not.mpr hend)] at h
    split at h
    · cases h
    · exact flagsOf_documentCall h
  · rw [if_pos hend] at h
    cases h

theorem restoreFromUpgrade_flags {r : Reply × Upgrade.State τ}
    (hcall : reportCall sha256 mem verify tagOf s c = none)
    (h : idRestoreFromUpgrade sha256 mem verify tagOf s c = some r) :
    flagsOf r.2.wl = flagsOf s.wl := by
  unfold reportCall at hcall
  unfold idRestoreFromUpgrade at h
  dsimp only at h
  by_cases hm : s.received.length = 0 ∧ ¬ encMalloc c.mallocBuffer c.totalSize = true
  · rw [if_pos hm] at h
    cases h
    rfl
  rw [if_neg hm] at h hcall
  by_cases hend : c.transferEnd = true
  · rw [if_neg (not_not.mpr hend)] at h hcall
    split at h
    · cases h
    · rename_i doc hdoc
      rw [hdoc] at hcall
      split at h
      · cases h
      · rename_i hdocument
        cases h
        exact restoreDocument_flags hcall hdocument
  · rw [if_pos hend] at h
    cases h
    rfl

theorem restoreFromUpgrade_report {hash : Bytes} {height : UInt64}
    (hcall : reportCall sha256 mem verify tagOf s c = some (wl, hash, height)) :
    idRestoreFromUpgrade sha256 mem verify tagOf s c =
      (genAndUploadWorkReport sha256 mem c.env.report c.env.upload wl hash height true).map fun r =>
        (⟨r.1, false⟩, ⟨r.2, if s.received.length = 0 then c.totalSize else s.total, []⟩) := by
  unfold reportCall at hcall
  unfold idRestoreFromUpgrade
  dsimp only
  by_cases hm : s.received.length = 0 ∧ ¬ encMalloc c.mallocBuffer c.totalSize = true
  · rw [if_pos hm] at hcall
    cases hcall
  rw [if_neg hm] at hcall ⊢
  by_cases hend : c.transferEnd = true
  · rw [if_neg (not_not.mpr hend)] at hcall ⊢
    cases hdoc : JsonParse.loadBuffer mem
      (contents (if s.received.length = 0 then c.totalSize else s.total) (s.received ++ c.data))
      (s.received ++ c.data).length with
    | error f =>
      rw [hdoc] at hcall
      cases hcall
    | ok doc =>
      rw [hdoc] at hcall
      dsimp only at hcall ⊢
      rw [restoreDocument_report hcall]
      cases genAndUploadWorkReport sha256 mem c.env.report c.env.upload wl hash height true with
      | none => rfl
      | some r => rfl
  · rw [if_pos hend] at hcall
    cases hcall

end

/-! ### A report without interruption -/

section
variable (verify : Verify) (floatText : Bytes → Bytes → Bytes) (usable : Nat → Nat)

def Reports (sha256 : Bytes → Hash) (mem : Mem) (s t : State τ) : Prop :=
  ∃ n, Runs.run (step sha256 mem verify floatText usable) s (List.replicate n .report) = some t

variable {verify floatText usable} {s s' : State τ} {c : ReportCall} {pc : ReportPc τ}

theorem Reports.refl (s : State τ) : Reports verify floatText usable sha256 mem s s := ⟨0, rfl⟩

theorem Reports.after {P : State τ → Prop} (hj : s.job = some ⟨c, pc⟩)
    (hs : reportStep sha256 mem s c pc = some s')
    (h : ∃ t, Reports verify floatText usable sha256 mem s' t ∧ P t) :
    ∃ t, Reports verify floatText usable sha256 mem s t ∧ P t := by
  obtain ⟨t, ⟨n, hn⟩, ht⟩ := h
  refine ⟨t, ⟨n + 1, ?_⟩, ht⟩
  have hstep : step sha256 mem verify floatText usable s .report = some s' := by
    simp only [step, hj]
    exact hs
  simp only [List.replicate_succ, Runs.run, hstep]
  exact hn

theorem settle_reports {made : Option (WorkReport τ × Signature)}
    (hj : s.job = some ⟨c, .setHeight made⟩) :
    ∃ t, Reports verify floatText usable sha256 mem s t ∧
      t.wl = settleReport s.wl c.blockHeight ∧ t.workReports = s.workReports ∧
        t.upgradeReports = s.upgradeReports := by
  refine Reports.after hj rfl (Reports.after rfl rfl (Reports.after rfl rfl ?_))
  cases made with
  | none => exact Reports.after rfl rfl ⟨_, .refl _, rfl, rfl, rfl⟩
  | some p =>
    obtain ⟨r, sig⟩ := p
    obtain ⟨asker, env, blockHash, blockHeight⟩ := c
    cases asker with
    | ecall upload => exact Reports.after rfl rfl ⟨_, .refl _, rfl, rfl, rfl⟩
    | restore upload => exact Reports.after rfl rfl ⟨_, .refl _, rfl, rfl, rfl⟩
    | handOver => exact Reports.after rfl rfl ⟨_, .refl _, rfl, rfl, rfl⟩

def Came (s : State τ) (c : ReportCall) (res : GenResult τ) (t : State τ) : Prop :=
  t.wl = res.2.1 ∧
    t.workReports = s.workReports ++ (if c.asker.isEcall then res.2.2.toList.map Prod.fst else []) ∧
    t.upgradeReports = s.upgradeReports ++
      (if c.asker.isEcall then [] else res.2.2.toList.map Prod.fst)

theorem came_unsigned {t : State τ} {wl : Workload τ} {status : CrustStatus} (hwl : t.wl = wl)
    (hw : t.workReports = s.workReports) (hu : t.upgradeReports = s.upgradeReports) :
    Came s c (status, wl, none) t := by
  refine ⟨hwl, ?_, ?_⟩
  · simpa using hw
  · simpa using hu

theorem refused_reports {status : CrustStatus} {res : GenResult τ}
    (h : some (status, settleReport s.wl c.blockHeight, none) = some res) :
    ∃ t, Reports verify floatText usable sha256 mem (s.goto c (.setHeight none)) t ∧ Came s c res t := by
  cases h
  have hsettle : ∃ t, Reports verify floatText usable sha256 mem (s.goto c (.setHeight none)) t ∧
      t.wl = settleReport s.wl c.blockHeight ∧ t.workReports = s.workReports ∧
        t.upgradeReports = s.upgradeReports := settle_reports rfl
  obtain ⟨t, ht, hwl, hw, hu⟩ := hsettle
  exact ⟨t, ht, came_unsigned hwl hw hu⟩

/-- With nothing in between, the steps of a report come to what `gen_work_report` returns. -/
theorem report_alone {res : GenResult τ} (hj : s.job = some ⟨c, .height⟩)
    (hg : genWorkReport sha256 mem c.env s.wl c.blockHash c.blockHeight c.asker.isRestore = some res) :
    ∃ t, Reports verify floatText usable sha256 mem s t ∧ Came s c res t := by
  unfold genWorkReport reportCondition at hg
  by_cases he : heightExpired s.wl.reportHeight c.blockHeight = true
  · rw [if_pos he] at hg
    cases hg
    exact Reports.after hj (if_pos he) ⟨_, .refl _, came_unsigned rfl rfl rfl⟩
  rw [if_neg he] at hg
  refine Reports.after hj (if_neg he) (Reports.after rfl rfl ?_)
  change ∃ t, Reports _ _ _ _ _ (s.goto c (if s.wl.restartFlag then _ else _)) t ∧ _
  by_cases hrestart : s.wl.restartFlag = true
  · rw [if_pos hrestart] at hg ⊢
    exact refused_reports hg
  rw [if_neg hrestart] at hg ⊢
  refine Reports.after rfl rfl ?_
  change ∃ t, Reports _ _ _ _ _ (s.goto c (if 0 < s.wl.validatedProof then _ else _)) t ∧ _
  by_cases hproof : 0 < s.wl.validatedProof
  swap
  · rw [if_pos hproof] at hg
    rw [if_neg hproof]
    exact refused_reports hg
  rw [if_neg (not_not.mpr hproof)] at hg
  rw [if_pos hproof]
  refine Reports.after rfl rfl ?_
  change ∃ t, Reports _ _ _ _ _ (s.goto c (if s.wl.reportFiles then _ else _)) t ∧ _
  by_cases hfiles : s.wl.reportFiles = true
  swap
  · rw [if_pos hfiles] at hg
    rw [if_neg hfiles]
    exact refused_reports hg
  rw [if_neg (not_not.mpr hfiles)] at hg
  rw [if_pos hfiles]
  obtain ⟨made, hmade, rfl⟩ := Option.map_eq_some_iff.mp hg
  refine Reports.after rfl (Option.map_eq_some_iff.mpr ⟨made, hmade, rfl⟩) ?_
  have hsettle : ∃ t, Reports verify floatText usable sha256 mem
      (((s.withWl made.2.1).signs c.asker (made.2.2.toList.map Prod.fst)).goto c
        (.setHeight made.2.2)) t ∧
      t.wl = settleReport made.2.1 c.blockHeight ∧
        t.workReports = s.workReports ++
          (if c.asker.isEcall then made.2.2.toList.map Prod.fst else []) ∧
        t.upgradeReports = s.upgradeReports ++
          (if c.asker.isEcall then [] else made.2.2.toList.map Prod.fst) := settle_reports rfl
  exact hsettle

end

end

end CrustSworker.Surface

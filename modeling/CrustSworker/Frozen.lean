import CrustSworker.ValidatedProof

/-!
# The enclave after a hand-over

After `id_gen_upgrade_data` has succeeded only the two validations look for
`ENC_UPGRADE_STATUS_SUCCESS`; the tests of the ecalls look for `ENC_UPGRADE_STATUS_PROCESS`, and
some have none. The main theorem is about every run in which nothing that was let in before can
still write, no ecall that finishes has anything to write, and no report is granted: then the
lists stay as they were handed over and nothing is signed.
-/

namespace CrustSworker.Surface

open Report Upgrade UpgradeReport

variable {τ : Type}

def LoopPc.validating : LoopPc → Bool
  | .merge | .checks _ _ | .punish => true
  | _ => false

def ReportPc.granted : ReportPc τ → Bool
  | .compose | .upload _ _ => true
  | pc => pc.signed

/-- No validation is under way, no report and no hand-over, and no `ecall_enable_upgrade` is behind
its tests. -/
def calm (s : State τ) : Bool :=
  (s.loops.all fun l => !l.pc.validating) && s.job.isNone && isIdle s.phase && decide (s.enabling = 0)

section
variable (sha256 : Bytes → Hash) (mem : Mem)

def sealRefused (env : Seal.SealEnv) (wl : Workload τ) (treeText : Bytes) : Bool :=
  decide (wl.checkedFiles.length + wl.newFiles.length ≥ fileNumberUpperLimit) ||
    match JsonParse.load mem treeText with
    | .error _ => true
    | .ok treeJson =>
      decide (treeJson.size = 0 ∨
        Merkle.validateMerkletree sha256 mem env.merkle [] (Merkle.treeOf treeJson) ≠ .success)

/-- The ecall finds nothing to write. `ecall_disable_upgrade` ends the time that is looked at. -/
def spares (s : State τ) : Ecall τ → Bool
  | .srdIncrease env _ => (Srd.newGHash sha256 env).isNone
  | .srdDecrease _ change => decide (change = 0)
  | .srdUpdateMetadata _ hashs =>
    match JsonParse.load mem hashs with
    | .error _ => true
    | .ok doc => doc.objectRange.isEmpty
  | .restoreMetadata env _ data =>
    match Metadata.idGetMetadata mem env s.wl data with
    | none => true
    | some (_, doc) => decide (doc.size ≤ 0)
  | .sealFile env _ treeText _ => sealRefused sha256 mem env s.wl treeText
  | .confirmFile hash | .deleteFile hash =>
    (s.wl.checkedFiles ++ s.wl.newFiles).all fun f => !Storage.hasHash hash f
  | .restoreFromUpgrade _ call => !call.transferEnd
  | .enableUpgrade blockHeight => decide (tryReportWork s.wl blockHeight ≠ .success)
  | .disableUpgrade => false
  | .genAndUploadWorkReport _ _ _ _ | .genKeyPair _ _ | .silent _ _ => true

def held (s : State τ) : Move τ → Bool
  | .finish k =>
    match s.inside[k]? with
    | some e => spares sha256 mem s e
    | none => true
  | .report =>
    match s.job with
    | some ⟨_, .files⟩ => !s.wl.reportFiles
    | _ => true
  | _ => true

end

/-! ### The invariant -/

structure SameLists (wl wl' : Workload τ) : Prop where
  srd : wl'.srdPath2hashs = wl.srdPath2hashs
  checked : wl'.checkedFiles = wl.checkedFiles
  new : wl'.newFiles = wl.newFiles
  status : wl'.upgradeStatus = wl.upgradeStatus

theorem SameLists.refl (wl : Workload τ) : SameLists wl wl := ⟨rfl, rfl, rfl, rfl⟩

theorem SameLists.trans {wl wl' wl'' : Workload τ} (h : SameLists wl wl') (h' : SameLists wl' wl'') :
    SameLists wl wl'' where
  srd := h'.srd.trans h.srd
  checked := h'.checked.trans h.checked
  new := h'.new.trans h.new
  status := h'.status.trans h.status

structure Frozen (s₀ s : State τ) : Prop where
  lists : SameLists s₀.wl s.wl
  workReports : s.workReports = s₀.workReports
  upgradeReports : s.upgradeReports = s₀.upgradeReports
  success : s₀.wl.upgradeStatus = .success
  loops : ∀ l ∈ s.loops, l.pc.validating = false
  job : s.jobIs ReportPc.granted = false
  idle : isIdle s.phase = true
  enabling : s.enabling = 0

theorem frozen_start {s : State τ} (hs : s.wl.upgradeStatus = .success) (hc : calm s = true) :
    Frozen s s := by
  simp only [calm, Bool.and_eq_true, List.all_eq_true, Option.isNone_iff_eq_none,
    decide_eq_true_eq] at hc
  obtain ⟨⟨⟨hloops, hjob⟩, hidle⟩, henabling⟩ := hc
  refine ⟨.refl _, rfl, rfl, hs, fun l hl => ?_, ?_, hidle, henabling⟩
  · simpa using hloops l hl
  · rw [State.jobIs, hjob]
    rfl

theorem Frozen.keep {s₀ s s' : State τ} (h : Frozen s₀ s) (hsame : SameLists s.wl s'.wl)
    (hw : s'.workReports = s.workReports) (hu : s'.upgradeReports = s.upgradeReports)
    (hj : s'.job = s.job) (hp : s'.phase = s.phase) (hl : s'.loops = s.loops)
    (he : s'.enabling = s.enabling) : Frozen s₀ s' where
  lists := h.lists.trans hsame
  workReports := hw.trans h.workReports
  upgradeReports := hu.trans h.upgradeReports
  success := h.success
  loops := hl ▸ h.loops
  job := by
    rw [State.jobIs, hj]
    exact h.job
  idle := hp ▸ h.idle
  enabling := he.trans h.enabling

theorem Frozen.goto {s₀ s : State τ} (h : Frozen s₀ s) {wl : Workload τ} {job : Option (ReportJob τ)}
    {owed : Nat} {restored : Bool} (hsame : SameLists s.wl wl)
    (hjob : job.any (fun j => j.pc.granted) = false) :
    Frozen s₀ { s.withWl wl with job := job, owed := owed, restored := restored } where
  lists := h.lists.trans hsame
  workReports := h.workReports
  upgradeReports := h.upgradeReports
  success := h.success
  loops := h.loops
  job := hjob
  idle := h.idle
  enabling := h.enabling

section
variable {sha256 : Bytes → Hash} {mem : Mem} {verify : Verify} {s₀ s s' : State τ}

theorem report_same (wl : Workload τ) : SameLists wl wl.reportReduceValidatedProof := by
  unfold Workload.reportReduceValidatedProof
  split_ifs
  · exact ⟨rfl, rfl, rfl, rfl⟩
  · exact ⟨rfl, rfl, rfl, rfl⟩

theorem Frozen.report (h : Frozen s₀ s) {c : ReportCall} {pc : ReportPc τ} (hj : s.job = some ⟨c, pc⟩)
    (hheld : pc = .files → s.wl.reportFiles = false)
    (hstep : reportStep sha256 mem s c pc = some s') : Frozen s₀ s' := by
  have hpc : pc.granted = false := (jobIs_of_job hj _).symm.trans h.job
  cases pc with
  | height =>
    simp only [reportStep] at hstep
    split_ifs at hstep
    · cases hstep
      exact h.goto (.refl _) rfl
    · cases hstep
      exact h.goto (.refl _) rfl
  | restart =>
    cases hstep
    refine h.goto (.refl _) ?_
    split_ifs
    · rfl
    · rfl
  | proof =>
    cases hstep
    refine h.goto (.refl _) ?_
    split_ifs
    · rfl
    · rfl
  | files =>
    cases hstep
    refine h.goto (.refl _) ?_
    rw [hheld rfl]
    rfl
  | compose => cases hpc
  | setHeight made =>
    cases hstep
    refine h.goto ⟨rfl, rfl, rfl, rfl⟩ ?_
    cases made with
    | none => rfl
    | some p => cases hpc
  | setRestart made =>
    cases hstep
    refine h.goto ⟨rfl, rfl, rfl, rfl⟩ ?_
    cases made with
    | none => rfl
    | some p => cases hpc
  | setFiles made =>
    cases hstep
    refine h.goto ⟨rfl, rfl, rfl, rfl⟩ ?_
    cases made with
    | none => rfl
    | some p => cases hpc
  | reduce made =>
    cases made with
    | none =>
      cases hstep
      exact h.goto (report_same _) rfl
    | some p => cases hpc
  | upload r sig => cases hpc

/-! ### The ecalls -/

theorem findLast_none {p : FileItem τ → Bool} {files : List (FileItem τ)}
    (h : ∀ f ∈ files, p f = false) : Storage.findLast p files = none := by
  have hrev : files.reverse.findIdx? p = none := by
    rw [List.findIdx?_eq_none_iff]
    exact fun f hf => h f (List.mem_reverse.mp hf)
  rw [Storage.findLast, hrev]
  rfl

theorem sealFile_refused {env : Seal.SealEnv} {tag : τ} {wl : Workload τ} {treeText path : Bytes}
    {r : Seal.SealResult τ} (h : sealRefused sha256 mem env wl treeText = true)
    (hr : Seal.storageSealFile sha256 mem env tag wl treeText path = some r) : r.wl = wl := by
  refine Seal.storageSealFile_failed hr fun hs => ?_
  unfold Seal.storageSealFile at hr
  dsimp only at hr
  unfold sealRefused at h
  split_ifs at hr with hlimit
  · cases hr
    cases hs
  rw [decide_eq_false hlimit, Bool.false_or] at h
  split at hr
  · cases hr
  rename_i treeJson hload
  rw [hload] at h
  split_ifs at hr with hsize
  · cases hr
    cases hs
  have hvalid := (of_decide_eq_true h).resolve_left hsize
  split at hr
  · rename_i hok
    exact hvalid hok
  · rename_i status hne
    cases hr
    exact hvalid hs

theorem unknown_file {wl : Workload τ} {hash : Bytes}
    (h : ((wl.checkedFiles ++ wl.newFiles).all fun f => !Storage.hasHash hash f) = true) :
    (∀ f ∈ wl.checkedFiles, Storage.hasHash hash f = false) ∧
      ∀ f ∈ wl.newFiles, Storage.hasHash hash f = false := by
  simp only [List.all_append, Bool.and_eq_true, List.all_eq_true, Bool.not_eq_true'] at h
  exact h

theorem Frozen.finish (h : Frozen s₀ s) {e : Ecall τ} (he : spares sha256 mem s e = true)
    (hb : body sha256 mem verify s e = some s') : Frozen s₀ s' := by
  cases e with
  | srdIncrease env path =>
    cases hb
    refine h.keep ?_ rfl rfl rfl rfl rfl rfl
    change SameLists s.wl (Srd.srdIncrease sha256 env s.wl path)
    rw [Srd.srdIncrease, Option.isNone_iff_eq_none.mp he]
    exact .refl _
  | srdDecrease answer change =>
    obtain ⟨r, hr, rfl⟩ := Option.map_eq_some_iff.mp hb
    refine h.keep ?_ rfl rfl rfl rfl rfl rfl
    obtain rfl : change = 0 := of_decide_eq_true he
    have hmin : min (0 : Int) (Srd.srdTotal s.wl.srdPath2hashs) = 0 := by omega
    simp only [Srd.srdDecrease, hmin, if_true] at hr
    cases hr
    exact .refl _
  | srdUpdateMetadata answer hashs =>
    obtain ⟨wl, hwl, rfl⟩ := Option.map_eq_some_iff.mp hb
    refine h.keep ?_ rfl rfl rfl rfl rfl rfl
    change SameLists s.wl wl
    unfold Srd.srdUpdateMetadata at hwl
    simp only [spares] at he
    split at hwl
    · cases hwl
    · rename_i doc hdoc
      rw [hdoc] at he
      cases hwl
      rw [List.isEmpty_iff.mp he]
      exact .refl _
  | restoreMetadata env tagOf data =>
    obtain ⟨r, hr, rfl⟩ := Option.map_eq_some_iff.mp hb
    refine h.keep ?_ rfl rfl rfl rfl rfl rfl
    change SameLists s.wl r.2
    unfold Metadata.idRestoreMetadata at hr
    simp only [spares] at he
    split at hr
    · cases hr
    · rename_i doc hdoc
      rw [hdoc] at he
      rw [if_pos (of_decide_eq_true he)] at hr
      cases hr
      exact .refl _
  | genAndUploadWorkReport env upload blockHash blockHeight =>
    cases hb
    exact h.keep (.refl _) rfl rfl rfl rfl rfl rfl
  | genKeyPair env accountId =>
    cases hb
    refine h.keep ?_ rfl rfl rfl rfl rfl rfl
    change SameLists s.wl (Metadata.idGenKeyPair env s.wl accountId).2
    unfold Metadata.idGenKeyPair
    split
    · exact .refl _
    cases accountId with
    | none => exact .refl _
    | some id =>
      dsimp only
      split_ifs
      · exact .refl _
      · exact .refl _
      · exact .refl _
      · exact ⟨rfl, rfl, rfl, rfl⟩
  | sealFile env tag treeText path =>
    obtain ⟨r, hr, rfl⟩ := Option.map_eq_some_iff.mp hb
    refine h.keep ?_ rfl rfl rfl rfl rfl rfl
    change SameLists s.wl r.wl
    rw [sealFile_refused he hr]
    exact .refl _
  | confirmFile hash =>
    cases hb
    refine h.keep ?_ rfl rfl rfl rfl rfl rfl
    change SameLists s.wl (Storage.storageConfirmFile s.wl hash)
    obtain ⟨hchecked, hnew⟩ := unknown_file he
    rw [Storage.storageConfirmFile, findLast_none hchecked,
      findLast_none fun f hf => by rw [hnew f hf, Bool.false_and]]
    exact .refl _
  | deleteFile hash =>
    cases hb
    refine h.keep ?_ rfl rfl rfl rfl rfl rfl
    change SameLists s.wl (Storage.storageDeleteFile s.wl hash)
    obtain ⟨hchecked, hnew⟩ := unknown_file he
    rw [Storage.storageDeleteFile, List.findIdx?_eq_none_iff.mpr hchecked, findLast_none hnew]
    exact .refl _
  | enableUpgrade blockHeight =>
    simp only [Surface.body, if_neg (of_decide_eq_true he)] at hb
    cases hb
    exact h
  | disableUpgrade => cases he
  | restoreFromUpgrade tagOf call =>
    have hend : call.transferEnd = false := by simpa [spares] using he
    have hnone : reportCall sha256 mem verify tagOf s.up call = none := by
      simp [reportCall, hend]
    simp only [Surface.body, hnone] at hb
    obtain ⟨r, hr, rfl⟩ := Option.map_eq_some_iff.mp hb
    refine h.keep ?_ rfl rfl rfl rfl rfl rfl
    change SameLists s.wl r.2.wl
    simp only [idRestoreFromUpgrade, hend, Bool.false_eq_true, not_false_eq_true, if_true] at hr
    split_ifs at hr
    · cases hr
      exact .refl _
    · cases hr
      exact .refl _
    · cases hr
      exact .refl _
  | silent name hname =>
    cases hb
    exact h

theorem loopStep_outside {env : LoopEnv} {wl wl' : Workload τ} {l l' : Loop}
    (h : loopStep sha256 mem env wl l = some (wl', l')) (hv : l.pc.validating = false)
    (hs : wl.upgradeStatus = .success) : SameLists wl wl' ∧ l'.pc.validating = false := by
  unfold loopStep at h
  split at h
  · rw [if_pos hs] at h
    cases h
    exact ⟨.refl _, rfl⟩
  · rename_i hpc
    rw [hpc] at hv
    cases hv
  · rename_i hpc
    rw [hpc] at hv
    cases hv
  · rename_i hpc
    rw [hpc] at hv
    cases hv
  · rw [if_pos hs] at h
    cases h
    exact ⟨.refl _, rfl⟩
  · rename_i hpc
    rw [hpc] at hv
    cases hv
  · cases h
    exact ⟨.refl _, rfl⟩
  · cases h
    exact ⟨.refl _, rfl⟩
  · cases h
    exact ⟨⟨rfl, rfl, rfl, rfl⟩, rfl⟩

theorem Frozen.loop (h : Frozen s₀ s) {env : LoopEnv} {i : Nat} {l l' : Loop} {wl' : Workload τ}
    (hl : s.loops[i]? = some l) (hstep : loopStep sha256 mem env s.wl l = some (wl', l')) :
    Frozen s₀ (passStep s i l wl' l') := by
  obtain ⟨hsame, hout⟩ := loopStep_outside hstep (h.loops l (List.mem_of_getElem? hl))
    (h.lists.status.trans h.success)
  have hloops : ∀ l₁ ∈ s.loops.set i l', l₁.pc.validating = false := by
    intro l₁ hl₁
    rcases List.mem_or_eq_of_mem_set hl₁ with hl₁ | rfl
    · exact h.loops l₁ hl₁
    · exact hout
  unfold passStep
  dsimp only
  split_ifs
  · exact ⟨h.lists.trans hsame, h.workReports, h.upgradeReports, h.success, hloops, h.job, h.idle,
      h.enabling⟩
  · exact ⟨h.lists.trans hsame, h.workReports, h.upgradeReports, h.success, hloops, h.job, h.idle,
      h.enabling⟩
  · exact ⟨h.lists.trans hsame, h.workReports, h.upgradeReports, h.success, hloops, h.job, h.idle,
      h.enabling⟩

theorem Frozen.genStep (h : Frozen s₀ s) (env : GenDataEnv) (blockHeight : UInt64) :
    Frozen s₀ (genStep env s blockHeight) := by
  unfold Surface.genStep
  split
  · exact h
  · exact ⟨h.lists, h.workReports, h.upgradeReports, h.success, h.loops, rfl, h.idle, h.enabling⟩

variable {floatText : Bytes → Bytes → Bytes} {usable : Nat → Nat}

theorem step_frozen {m : Move τ} (hstep : step sha256 mem verify floatText usable s m = some s')
    (hheld : held sha256 mem s m = true) (h : Frozen s₀ s) : Frozen s₀ s' := by
  cases m with
  | enter e =>
    cases hstep
    unfold enterStep
    split_ifs
    · exact h
    · exact h.keep (.refl _) rfl rfl rfl rfl rfl rfl
  | finish k =>
    simp only [step] at hstep
    split at hstep
    · cases hstep
    rename_i e he
    have hs : Frozen s₀ { s with inside := s.inside.eraseIdx k } :=
      h.keep (.refl _) rfl rfl rfl rfl rfl rfl
    refine hs.finish (e := e) ?_ hstep
    simp only [held, he] at hheld
    cases e <;> exact hheld
  | lock k =>
    simp only [step] at hstep
    split at hstep
    · cases hstep
    split_ifs at hstep
    cases hstep
    exact ⟨h.lists, h.workReports, h.upgradeReports, h.success, h.loops, rfl, h.idle, h.enabling⟩
  | report =>
    simp only [step] at hstep
    split at hstep
    · cases hstep
    rename_i j hj
    refine h.report hj (fun hpc => ?_) hstep
    obtain ⟨c, pc⟩ := j
    obtain rfl : pc = .files := hpc
    simpa [held, hj] using hheld
  | setProcess =>
    simp only [step, if_pos h.enabling] at hstep
    cases hstep
  | mainLoop =>
    cases hstep
    refine ⟨h.lists, h.workReports, h.upgradeReports, h.success, fun l hl => ?_, h.job, h.idle,
      h.enabling⟩
    rcases List.mem_append.mp hl with hl | hl
    · exact h.loops l hl
    · rw [List.mem_singleton.mp hl]
      rfl
  | loop i env =>
    simp only [step] at hstep
    split at hstep
    · cases hstep
    rename_i l hl
    obtain ⟨⟨wl', l'⟩, hloop, rfl⟩ := Option.map_eq_some_iff.mp hstep
    exact h.loop hl hloop
  | genReport env blockHeight =>
    simp only [step] at hstep
    split_ifs at hstep
    cases hstep
    exact h.genStep env blockHeight
  | upload env => exact absurd h.idle (by simp [(part_cases rfl hstep).1])
  | serializeSrd => exact absurd h.idle (by simp [(part_cases rfl hstep).1])
  | serializeFile env => exact absurd h.idle (by simp [(part_cases rfl hstep).1])
  | sign env => exact absurd h.idle (by simp [(part_cases rfl hstep).1])
  | genDone k =>
    simp only [step] at hstep
    split at hstep
    · cases hstep
    cases hstep
    have hstatus : s.wl.upgradeStatus = .success := h.lists.status.trans h.success
    exact h.keep ⟨rfl, rfl, rfl, hstatus.symm⟩ rfl rfl rfl rfl rfl rfl

theorem status_of_genDone {k : Nat}
    (h : step sha256 mem verify floatText usable s (.genDone k) = some s') :
    s'.wl.upgradeStatus = .success := by
  simp only [step] at h
  split at h
  · cases h
  · cases h
    rfl

/-- From a hand-over on, in every run in which the condition holds, the three lists stay as
they are and no report is signed. -/
theorem frozen_after_hand_over {t : State τ} {k : Nat} {moves : List (Move τ)}
    (hdone : step sha256 mem verify floatText usable s (.genDone k) = some s')
    (hcalm : calm s' = true)
    (hrun : Runs.run (step sha256 mem verify floatText usable) s' moves = some t)
    (hheld : Runs.Allowed (step sha256 mem verify floatText usable)
      (fun s m => held sha256 mem s m = true) s' moves) :
    t.wl.srdPath2hashs = s'.wl.srdPath2hashs ∧ t.wl.checkedFiles = s'.wl.checkedFiles ∧
      t.wl.newFiles = s'.wl.newFiles ∧ t.workReports = s'.workReports ∧
      t.upgradeReports = s'.upgradeReports := by
  have hfrozen : Frozen s' t :=
    Runs.run_invariant_of (fun _ _ _ h hq hi => step_frozen h hq hi) hrun hheld
      (frozen_start (status_of_genDone hdone) hcalm)
  exact ⟨hfrozen.lists.srd, hfrozen.lists.checked, hfrozen.lists.new, hfrozen.workReports,
    hfrozen.upgradeReports⟩

end

/-! ### Two runs after a hand-over -/

def beforeDone : List (Move Unit) := .mainLoop :: validPass ++ (handOverAt 700).dropLast

def handedOver : Option (State Unit × State Unit) :=
  (Runs.run smallMachine smallInit beforeDone).bind fun s =>
    (smallMachine s (.genDone 0)).map fun s' => (s, s')

theorem handedOver_some {s s' : State Unit} (h : handedOver = some (s, s')) :
    smallMachine s (.genDone 0) = some s' := by
  obtain ⟨s₁, -, h₁⟩ := Option.bind_eq_some_iff.mp h
  obtain ⟨s₂, hdone, hpair⟩ := Option.map_eq_some_iff.mp h₁
  cases hpair
  exact hdone

def idleMoves : List (Move Unit) :=
  [.enter (.genAndUploadWorkReport openGen.report openGen.upload [] 700), .finish 0, .lock 0,
    .report, .enter (.deleteFile (str "00")), .finish 0]

theorem frozen_small :
    ∃ s s' t, handedOver = some (s, s') ∧
      Runs.run smallMachine s' (skippedPass ++ idleMoves) = some t ∧
      t.workReports = s'.workReports := by
  have heval : (handedOver.bind fun p =>
      (Runs.run smallMachine p.2 (skippedPass ++ idleMoves)).map fun _ =>
        calm p.2 && decide (Runs.Allowed smallMachine (fun s m => held Sha256.sha256 Metadata.plainMem s m = true)
          p.2 (skippedPass ++ idleMoves))) = some true := by decide +kernel
  obtain ⟨⟨s, s'⟩, hover, hrest⟩ := Option.bind_eq_some_iff.mp heval
  obtain ⟨t, hrun, hcond⟩ := Option.map_eq_some_iff.mp hrest
  simp only [Bool.and_eq_true, decide_eq_true_eq] at hcond
  exact ⟨s, s', t, hover, hrun,
    (frozen_after_hand_over (handedOver_some hover) hcond.1 hrun hcond.2).2.2.2.1⟩

/-- After the hand-over the enclave signs a report and takes a new path. -/
theorem not_frozen :
    ∃ s s' t, handedOver = some (s, s') ∧ s'.wl.upgradeStatus = .success ∧ calm s' = true ∧
      Runs.run smallMachine s' (skippedPass ++ report 900 ++
        [.enter (.srdUpdateMetadata (fun _ => .success) (str "\x7b\"/a\":0\x7d")), .finish 0]) =
          some t ∧
      t.workReports ≠ s'.workReports ∧ t.wl.srdPath2hashs ≠ s'.wl.srdPath2hashs := by
  have heval : (handedOver.bind fun p =>
      (Runs.run smallMachine p.2 (skippedPass ++ report 900 ++
        [.enter (.srdUpdateMetadata (fun _ => .success) (str "\x7b\"/a\":0\x7d")), .finish 0])).map
        fun t => decide (p.2.wl.upgradeStatus = .success) && calm p.2 &&
          decide (t.workReports.length ≠ p.2.workReports.length) &&
          decide (t.wl.srdPath2hashs.length ≠ p.2.wl.srdPath2hashs.length)) = some true := by
    decide +kernel
  obtain ⟨⟨s, s'⟩, hover, hrest⟩ := Option.bind_eq_some_iff.mp heval
  obtain ⟨t, hrun, hcond⟩ := Option.map_eq_some_iff.mp hrest
  simp only [Bool.and_eq_true, decide_eq_true_eq] at hcond
  refine ⟨s, s', t, hover, hcond.1.1.1, hcond.1.1.2, hrun, fun hw => ?_, fun hsrd => ?_⟩
  · exact hcond.1.2 (by rw [hw])
  · exact hcond.2 (by rw [hsrd])

end CrustSworker.Surface

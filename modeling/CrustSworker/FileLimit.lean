import CrustSworker.FileStats

/-!
# The file limit

Concurrent calls of `storage_seal_file`. A call reads the length of `checked_files` under one
lock and that of `new_files` under another, seals the file, and adds its entry at the end; the
number it has compared with the limit is by then an old one. The other operations hold
`g_checked_files_mutex` for all they do with the lists, so each of them is one step.
-/

namespace CrustSworker.FileLimit

open Seal Report

variable {τ : Type}

/-! ### The parts of `storage_seal_file` -/

def sealChecked (sha256 : Bytes → Hash) (mem : Mem) (env : SealEnv) (tag : τ) (wl : Workload τ)
    (treeText path : Bytes) : Option (SealResult τ) :=
  let exit (status : CrustStatus) : Option (SealResult τ) := some ⟨status, wl, [], [], []⟩
  match JsonParse.load mem treeText with
  | .error _ => none
  | .ok treeJson =>
    if treeJson.size = 0 then exit .invalidMerkletree
    else
      let tree := Merkle.treeOf treeJson
      match Merkle.validateMerkletree sha256 mem env.merkle [] tree with
      | .success =>
        match sealTree sha256 mem env.node path [] ⟨[], 0, 0, []⟩ tree with
        | none => none
        | some (.success, w, newRoot) => some (addSealed mem env tag wl path tree.info w newRoot)
        | some (status, w, _) => some ⟨status, wl, [], [], w.blocks⟩
      | status => exit status

theorem storageSealFile_eq (sha256 : Bytes → Hash) (mem : Mem) (env : SealEnv) (tag : τ)
    (wl : Workload τ) (treeText path : Bytes) :
    storageSealFile sha256 mem env tag wl treeText path =
      if wl.checkedFiles.length + wl.newFiles.length ≥ fileNumberUpperLimit then
        some ⟨.fileNumberExceed, wl, [], [], []⟩
      else sealChecked sha256 mem env tag wl treeText path := rfl

inductive Stage where
  | called
  | counted (fileNum : Nat)
  | passed
  | done (status : CrustStatus)
  deriving DecidableEq

structure SealCall (τ : Type) where
  env : SealEnv
  tag : τ
  treeText : Bytes
  path : Bytes
  stage : Stage

structure State (τ : Type) where
  wl : Workload τ
  calls : List (SealCall τ)

inductive Act (τ : Type) where
  | call (env : SealEnv) (tag : τ) (treeText path : Bytes)
  | advance (i : Nat)
  | confirm (hash : Bytes)
  | delete (hash : Bytes)
  | merge
  | gen (env : ReportEnv) (blockHash : Bytes) (blockHeight : UInt64) (isUpgrading : Bool)
  | ack

def fileNum (wl : Workload τ) : Nat := wl.checkedFiles.length + wl.newFiles.length

def State.reach (s : State τ) (i : Nat) (c : SealCall τ) (stage : Stage) : State τ :=
  { s with calls := s.calls.set i { c with stage := stage } }

@[simp] theorem State.reach_wl (s : State τ) (i : Nat) (c : SealCall τ) (stage : Stage) :
    (s.reach i c stage).wl = s.wl := rfl

section
variable (sha256 : Bytes → Hash) (mem : Mem)

def advanceCall (s : State τ) (i : Nat) (c : SealCall τ) : Option (State τ) :=
  match c.stage with
  | .called => some (s.reach i c (.counted s.wl.checkedFiles.length))
  | .counted num =>
    if num + s.wl.newFiles.length ≥ fileNumberUpperLimit then
      some (s.reach i c (.done .fileNumberExceed))
    else some (s.reach i c .passed)
  | .passed =>
    match sealChecked sha256 mem c.env c.tag s.wl c.treeText c.path with
    | none => none
    | some res => some ({ s with wl := res.wl }.reach i c (.done res.status))
  | .done _ => none

def onFiles (s : State τ) (a : FileStats.Act τ) : Option (State τ) :=
  (FileStats.step sha256 mem s.wl a).map fun wl => { s with wl := wl }

def step (s : State τ) : Act τ → Option (State τ)
  | .call env tag treeText path =>
    some { s with calls := s.calls ++ [⟨env, tag, treeText, path, .called⟩] }
  | .advance i =>
    match s.calls[i]? with
    | none => none
    | some c => advanceCall sha256 mem s i c
  | .confirm hash => onFiles sha256 mem s (.confirm hash)
  | .delete hash => onFiles sha256 mem s (.delete hash)
  | .merge => onFiles sha256 mem s .merge
  | .gen env blockHash blockHeight isUpgrading =>
    onFiles sha256 mem s (.gen env blockHash blockHeight isUpgrading)
  | .ack => onFiles sha256 mem s .ack

end

def inFlight (s : State τ) : Nat := s.calls.countP fun c => decide (c.stage = .passed)

def stageOf (s : State τ) (i : Nat) : Option Stage := s.calls[i]?.map SealCall.stage

/-- A call that passes the test would also pass it with the files of both lists as they are
now, and with a file for every call that has passed before. -/
def passesCounted (s : State τ) : Act τ → Bool
  | .advance i =>
    match stageOf s i with
    | some (.counted num) =>
      decide (num + s.wl.newFiles.length < fileNumberUpperLimit →
        fileNum s.wl + inFlight s < fileNumberUpperLimit)
    | _ => true
  | _ => true

/-! ### Lengths of the lists -/

section
variable {sha256 : Bytes → Hash} {mem : Mem} {wl wl' : Workload τ}

theorem addSealed_adds (env : SealEnv) (tag : τ) (path : Bytes) (n : NodeInfo) (w : Walk)
    (newRoot : Bytes) : fileNum (addSealed mem env tag wl path n w newRoot).wl ≤ fileNum wl + 1 := by
  by_cases hs : (addSealed mem env tag wl path n w newRoot).status = .success
  · obtain ⟨newHash, orgHash, hadd⟩ := addSealed_success hs
    rw [hadd]
    simp only [fileNum, Workload.addNewFile, Workload.setWlSpec, List.length_append,
      List.length_singleton]
    omega
  · rw [addSealed_failed hs]
    omega

theorem sealChecked_adds {env : SealEnv} {tag : τ} {treeText path : Bytes} {res : SealResult τ}
    (h : sealChecked sha256 mem env tag wl treeText path = some res) :
    fileNum res.wl ≤ fileNum wl + 1 := by
  unfold sealChecked at h
  dsimp only at h
  split at h
  · cases h
  split at h
  · cases h
    exact Nat.le_succ _
  split at h
  · split at h
    · cases h
    · cases h
      exact addSealed_adds _ _ _ _ _ _
    · cases h
      exact Nat.le_succ _
  · cases h
    exact Nat.le_succ _

theorem fileNum_confirm (wl : Workload τ) (hash : Bytes) :
    fileNum (Storage.storageConfirmFile wl hash) = fileNum wl := by
  unfold Storage.storageConfirmFile
  split
  · obtain ⟨info, h⟩ := Workload.moveWlSpec_eq _ _ _ _
    rw [h]
    simp [fileNum]
  · split
    · obtain ⟨info, h⟩ := Workload.moveWlSpec_eq _ _ _ _
      rw [h]
      simp [fileNum]
    · rfl

theorem fileNum_delete (wl : Workload τ) (hash : Bytes) :
    fileNum (Storage.storageDeleteFile wl hash) ≤ fileNum wl := by
  unfold Storage.storageDeleteFile
  split
  · obtain ⟨info, h⟩ := Storage.dropSpec_eq _ _ _
    rw [h]
    simp [fileNum, Workload.setStatusAt]
  · split
    · rename_i i _
      obtain ⟨info, h⟩ := Storage.dropSpec_eq _ _ _
      rw [h]
      exact Nat.add_le_add_left (List.length_eraseIdx_le wl.newFiles i) _
    · exact Nat.le_refl _

theorem fileNum_gen {env : ReportEnv} {blockHash : Bytes} {blockHeight : UInt64}
    {isUpgrading : Bool} {res : GenResult τ}
    (hg : genWorkReport sha256 mem env wl blockHash blockHeight isUpgrading = some res) :
    fileNum res.2.1 ≤ fileNum wl := by
  by_cases hp : heightExpired wl.reportHeight blockHeight = true
  · unfold genWorkReport at hg
    rw [if_pos hp] at hg
    cases hg
    exact Nat.le_refl _
  · rcases (genWorkReport_outcome (by simpa using hp) hg).settled with hs | hs
    · rw [hs]
      exact Nat.le_refl _
    · rw [hs]
      refine Nat.add_le_add_right ?_ _
      simp only [settleReport, Workload.reportReduceValidatedProof, afterScan,
        FileStats.scanFiles_items, List.length_map]
      exact List.length_filter_le _ _

theorem length_ackFiles (idxs : List Nat) (files : List (FileItem τ)) :
    (idxs.foldl Workload.ackFile files).length = files.length := by
  induction idxs generalizing files with
  | nil => rfl
  | cons i idxs ih =>
    rw [List.foldl_cons, ih, Workload.ackFile, List.length_modify]

theorem fileNum_step {a : FileStats.Act τ} (hseal : ∀ env tag treeText path,
      a ≠ .sealFile env tag treeText path)
    (h : FileStats.step sha256 mem wl a = some wl') : fileNum wl' ≤ fileNum wl := by
  cases a with
  | sealFile env tag treeText path => exact absurd rfl (hseal env tag treeText path)
  | confirm hash =>
    cases h
    exact Nat.le_of_eq (fileNum_confirm wl hash)
  | delete hash =>
    cases h
    exact fileNum_delete wl hash
  | merge =>
    cases h
    simp [fileNum, Validator.mergeNewFiles]
  | gen env blockHash blockHeight isUpgrading =>
    obtain ⟨res, hres, rfl⟩ := Option.map_eq_some_iff.mp h
    exact fileNum_gen hres
  | ack =>
    cases h
    simp [fileNum, Workload.handleReportResult, length_ackFiles]

end

/-! ### One step -/

def Room (s : State τ) : Prop := fileNum s.wl + inFlight s ≤ fileNumberUpperLimit

def passedNum (stage : Stage) : Nat := if stage = .passed then 1 else 0

section
variable {sha256 : Bytes → Hash} {mem : Mem} {s s' : State τ}

theorem inFlight_reach {i : Nat} {c : SealCall τ} (hc : s.calls[i]? = some c) (stage : Stage) :
    inFlight (s.reach i c stage) + passedNum c.stage = inFlight s + passedNum stage := by
  obtain ⟨hi, rfl⟩ := List.getElem?_eq_some_iff.mp hc
  have hpos : s.calls[i].stage = .passed → 0 < inFlight s := fun hp =>
    List.countP_pos_iff.mpr ⟨s.calls[i], List.getElem_mem hi, decide_eq_true hp⟩
  simp only [inFlight, State.reach, List.countP_set hi, decide_eq_true_eq] at hpos ⊢
  unfold passedNum
  by_cases hp : s.calls[i].stage = .passed
  · have := hpos hp
    rw [if_pos hp]
    omega
  · rw [if_neg hp]
    omega

theorem advance_room {i : Nat} {c : SealCall τ} (hc : s.calls[i]? = some c)
    (hstep : advanceCall sha256 mem s i c = some s')
    (hok : passesCounted s (.advance i) = true) (h : Room s) : Room s' := by
  have hstage : stageOf s i = some c.stage := by rw [stageOf, hc, Option.map_some]
  unfold Room at h ⊢
  unfold advanceCall at hstep
  cases hst : c.stage with
  | called =>
    simp only [hst] at hstep
    cases hstep
    have hnum := inFlight_reach hc (.counted s.wl.checkedFiles.length)
    simp only [hst, passedNum, reduceCtorEq, if_false] at hnum
    rw [State.reach_wl]
    omega
  | counted num =>
    simp only [hst] at hstep
    simp only [passesCounted, hstage, hst, decide_eq_true_eq] at hok
    split at hstep
    · cases hstep
      have hnum := inFlight_reach hc (.done .fileNumberExceed)
      simp only [hst, passedNum, reduceCtorEq, if_false] at hnum
      rw [State.reach_wl]
      omega
    · rename_i hlt
      cases hstep
      have hroom := hok (by omega)
      have hnum := inFlight_reach hc .passed
      simp only [hst, passedNum, reduceCtorEq, if_false, if_true] at hnum
      rw [State.reach_wl]
      omega
  | passed =>
    simp only [hst] at hstep
    split at hstep
    · cases hstep
    · rename_i res hres
      cases hstep
      have hadd := sealChecked_adds hres
      have hnum := inFlight_reach hc (.done res.status)
      simp only [hst, passedNum, reduceCtorEq, if_false, if_true] at hnum
      have hcalls : inFlight (State.reach { s with wl := res.wl } i c (.done res.status)) =
          inFlight (s.reach i c (.done res.status)) := rfl
      rw [State.reach_wl]
      dsimp only
      omega
  | done status =>
    simp only [hst] at hstep
    cases hstep

theorem onFiles_room {a : FileStats.Act τ} (hseal : ∀ env tag treeText path,
      a ≠ .sealFile env tag treeText path)
    (hstep : onFiles sha256 mem s a = some s') (h : Room s) : Room s' := by
  obtain ⟨wl, hwl, rfl⟩ := Option.map_eq_some_iff.mp hstep
  exact Nat.le_trans (Nat.add_le_add_right (fileNum_step hseal hwl) _) h

theorem step_room {a : Act τ} (hstep : step sha256 mem s a = some s')
    (hok : passesCounted s a = true) (h : Room s) : Room s' := by
  cases a with
  | call env tag treeText path =>
    cases hstep
    have hnew : inFlight { s with calls := s.calls ++ [⟨env, tag, treeText, path, .called⟩] } =
        inFlight s := by
      simp [inFlight, List.countP_append]
    unfold Room
    rw [hnew]
    exact h
  | advance i =>
    simp only [step] at hstep
    split at hstep
    · cases hstep
    · rename_i c hc
      exact advance_room hc hstep hok h
  | confirm hash => exact onFiles_room (fun _ _ _ _ h => by cases h) hstep h
  | delete hash => exact onFiles_room (fun _ _ _ _ h => by cases h) hstep h
  | merge => exact onFiles_room (fun _ _ _ _ h => by cases h) hstep h
  | gen env blockHash blockHeight isUpgrading =>
    exact onFiles_room (fun _ _ _ _ h => by cases h) hstep h
  | ack => exact onFiles_room (fun _ _ _ _ h => by cases h) hstep h

end

/-! ### Whole runs -/

/-- The limit holds all along a run in which every call that passes the test finds room beside
the files that are there and those that are on their way. -/
theorem file_limit_holds {sha256 : Bytes → Hash} {mem : Mem} {wl : Workload τ} {acts : List (Act τ)}
    (hstart : fileNum wl ≤ fileNumberUpperLimit)
    (hok : Runs.Allowed (step sha256 mem) (fun s a => passesCounted s a = true) ⟨wl, []⟩ acts) :
    Runs.Always (step sha256 mem) (fun s => fileNum s.wl ≤ fileNumberUpperLimit) ⟨wl, []⟩ acts := by
  have hall := Runs.always_of_allowed (fun _ _ _ hstep hok h => step_room hstep hok h) hok
    (show Room (⟨wl, []⟩ : State τ) from hstart)
  exact hall.mono fun s h => Nat.le_trans (Nat.le_add_right _ _) h

/-! ### Two calls -/

def oneCall (i : Nat) : List (Act Nat) :=
  [.call (hostEnv (.success, some (str "abc"))) i abcLeaf (str "p"), .advance i, .advance i,
    .advance i]

def smallStep : State Nat → Act Nat → Option (State Nat) := step Sha256.sha256 ⟨fun _ _ => 0⟩

theorem file_limit_oneByOne :
    (Runs.run smallStep ⟨FileStats.emptyWorkload, []⟩ (oneCall 0 ++ [.merge] ++ oneCall 1)).map
        (fun s => fileNum s.wl) = some 2 ∧
      Runs.Always smallStep (fun s => fileNum s.wl ≤ fileNumberUpperLimit)
        ⟨FileStats.emptyWorkload, []⟩ (oneCall 0 ++ [.merge] ++ oneCall 1) :=
  ⟨by decide +kernel, file_limit_holds (by decide) (by decide +kernel)⟩

section
variable {sha256 : Bytes → Hash} {mem : Mem} {env : SealEnv} {tag : τ} {treeText path : Bytes}

theorem addSealed_status (wl wl₀ : Workload τ) (n : NodeInfo) (w : Walk) (newRoot : Bytes) :
    (addSealed mem env tag wl path n w newRoot).status =
      (addSealed mem env tag wl₀ path n w newRoot).status := by
  unfold addSealed
  dsimp only
  by_cases hren : env.renameDir ≠ .success
  · rw [if_pos hren, if_pos hren]
  rw [if_neg hren, if_neg hren]
  cases hexStringToBytes newRoot with
  | none => rfl
  | some newHash =>
    cases hexStringToBytes n.hash with
    | none => rfl
    | some orgHash =>
      dsimp only
      split_ifs
      all_goals rfl

theorem sealChecked_success {wl₀ : Workload τ}
    (h : (sealChecked sha256 mem env tag wl₀ treeText path).map SealResult.status = some .success)
    (wl : Workload τ) :
    ∃ res, sealChecked sha256 mem env tag wl treeText path = some res ∧
      fileNum res.wl = fileNum wl + 1 := by
  unfold sealChecked at h ⊢
  dsimp only at h ⊢
  cases hload : JsonParse.load mem treeText with
  | error e => simp [hload] at h
  | ok treeJson =>
    simp only [hload] at h ⊢
    by_cases hsize : treeJson.size = 0
    · simp [hsize] at h
    · rw [if_neg hsize] at h ⊢
      cases hval : Merkle.validateMerkletree sha256 mem env.merkle [] (Merkle.treeOf treeJson) with
      | success =>
        simp only [hval] at h ⊢
        cases hwalk : sealTree sha256 mem env.node path [] ⟨[], 0, 0, []⟩ (Merkle.treeOf treeJson) with
        | none => simp [hwalk] at h
        | some r =>
          obtain ⟨status, w, newRoot⟩ := r
          cases status with
          | success =>
            simp only [hwalk, Option.map_some, Option.some.injEq] at h ⊢
            refine ⟨_, rfl, ?_⟩
            rw [addSealed_status wl₀ wl] at h
            obtain ⟨newHash, orgHash, hadd⟩ := addSealed_success h
            rw [hadd]
            simp only [fileNum, Workload.addNewFile, Workload.setWlSpec, List.length_append,
              List.length_singleton]
            omega
          | _ => simp [hwalk] at h
      | _ => simp [hval] at h

def bothPass : List (Act Nat) :=
  [.call (hostEnv (.success, some (str "abc"))) 0 abcLeaf (str "p"),
    .call (hostEnv (.success, some (str "abc"))) 1 abcLeaf (str "p"),
    .advance 0, .advance 1, .advance 0, .advance 1, .advance 0, .advance 1]

theorem run_bothPass {wl : Workload Nat} (h : fileNum wl < fileNumberUpperLimit) :
    ∃ t, Runs.run smallStep ⟨wl, []⟩ bothPass = some t ∧ fileNum t.wl = fileNum wl + 2 := by
  obtain ⟨res₁, h₁, hn₁⟩ := sealChecked_success
    (show (sealChecked Sha256.sha256 ⟨fun _ _ => 0⟩ (hostEnv (.success, some (str "abc"))) 0
      FileStats.emptyWorkload abcLeaf (str "p")).map SealResult.status = some .success by
        decide +kernel) wl
  obtain ⟨res₂, h₂, hn₂⟩ := sealChecked_success
    (show (sealChecked Sha256.sha256 ⟨fun _ _ => 0⟩ (hostEnv (.success, some (str "abc"))) 1
      FileStats.emptyWorkload abcLeaf (str "p")).map SealResult.status = some .success by
        decide +kernel) res₁.wl
  have hlt : ¬ fileNumberUpperLimit ≤ wl.checkedFiles.length + wl.newFiles.length := Nat.not_le.mpr h
  have hrun : (Runs.run smallStep ⟨wl, []⟩ bothPass).map State.wl = some res₂.wl := by
    simp only [bothPass, smallStep, Runs.run, step, advanceCall, State.reach, List.nil_append,
      List.cons_append, List.getElem?_cons_zero, List.getElem?_cons_succ, List.set_cons_zero,
      List.set_cons_succ, ge_iff_le, if_neg hlt, h₁, h₂, Option.map_some]
  obtain ⟨t, ht, hwl⟩ := Option.map_eq_some_iff.mp hrun
  exact ⟨t, ht, by rw [hwl, hn₂, hn₁]⟩

end

def entry : FileItem Nat := ⟨0, fileEntry zeroHash zeroHash 563 3 1⟩

def holding (num : Nat) : Workload Nat :=
  { FileStats.emptyWorkload with checkedFiles := List.replicate num entry }

theorem fileNum_holding (num : Nat) : fileNum (holding num) = num := List.length_replicate

/-- With room for one file, two are added. -/
theorem calls_share_last_place :
    fileNum (holding 199999) < fileNumberUpperLimit ∧
      ∃ t, Runs.run smallStep ⟨holding 199999, []⟩ bothPass = some t ∧
        fileNumberUpperLimit < fileNum t.wl := by
  have hlt : fileNum (holding 199999) < fileNumberUpperLimit := by
    rw [fileNum_holding]
    decide
  obtain ⟨t, ht, hnum⟩ := run_bothPass hlt
  refine ⟨hlt, t, ht, ?_⟩
  rw [hnum, fileNum_holding]
  decide

end CrustSworker.FileLimit

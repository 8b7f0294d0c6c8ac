import CrustSworker.ECalls
import CrustSworker.Enclave
import CrustSworker.UpgradeReport

/-!
# The ecall surface

The whole enclave while the host calls into it: the ecalls with their tests of the upgrade
status, the steps of the main loop, the steps of a report, and the parts of
`id_gen_upgrade_data`. A call tests the status when it enters and does its work when it
finishes, and whatever the host likes happens in between. Several main loops may run.

The state also records what the enclave has signed and how many passes were really performed.
-/

namespace CrustSworker.Surface

open Report Upgrade UpgradeReport

variable {τ : Type}

/-! ### The main loop -/

/-- What the host and the random source answer in one step of the loop. Which G hashes fail
their check is decided by what the host returns for them. -/
structure LoopEnv where
  validateInit : CrustStatus
  rand : Nat → UInt32
  check : Validator.CheckEnv
  failed : Srd.DelIndex
  answer : Nat → CrustStatus

/-- Where a pass stands; `merge` and `punish` are behind the tests of the upgrade status. -/
inductive LoopPc where
  | files
  | merge
  | checks (rest : List Nat) (changed : List (Nat × Bool))
  | srd
  | punish
  | change
  | store
  | proof
  deriving DecidableEq, Repr

structure Loop where
  pc : LoopPc
  filesReal : Bool
  srdReal : Bool
  deriving DecidableEq, Repr

def Loop.start : Loop := ⟨.files, false, false⟩

def Loop.goto (l : Loop) (pc : LoopPc) : Loop := { l with pc := pc }

def Loop.real (l : Loop) : Bool := l.filesReal && l.srdReal

def meaningfulValidateMinNum : Nat := 64

/-- One file in fifty, in `double` arithmetic that is exact for list lengths. -/
def checkFileNum (n : Nat) : Nat := if n > meaningfulValidateMinNum then n / 50 else n

def fileIdxs (rand : Nat → UInt32) (n : Nat) : List Nat :=
  (List.range (checkFileNum n)).map fun k => (rand k).toNat % n

def srdPunishFactor : Nat := 2

def srdRandomDelete (mem : Mem) (answer : Nat → CrustStatus) (wl : Workload τ)
    (failed : Srd.DelIndex) : Option (Workload τ) :=
  let punishNum := srdPunishFactor * (failed.map fun p => p.2.length).sum
  if punishNum ≤ 0 ∧ failed.length = 0 then some wl
  else (Srd.srdDecrease mem answer wl punishNum failed).map Prod.snd

section
variable (sha256 : Bytes → Hash) (mem : Mem)

/-- One step of `ecall_main_loop`. `srd_change` leaves the change to the host, and storing the
metadata writes nothing here. -/
def loopStep (env : LoopEnv) (wl : Workload τ) (l : Loop) : Option (Workload τ × Loop) :=
  match l.pc with
  | .files =>
    if wl.upgradeStatus = .success then some (wl, { l with pc := .srd, filesReal := false })
    else some (wl, l.goto .merge)
  | .merge =>
    let wl := Validator.mergeNewFiles wl
    if env.validateInit ≠ .success then
      some (Validator.initFailed wl, { l with pc := .srd, filesReal := false })
    else some (wl, l.goto (.checks (fileIdxs env.rand wl.checkedFiles.length) []))
  | .checks [] changed =>
    some (Validator.settleChanged wl changed, { l with pc := .srd, filesReal := true })
  | .checks (i :: rest) changed =>
    match Validator.checkFile sha256 mem env.check ⟨wl, changed, false⟩ i with
    | none => none
    | some p =>
      if p.stopped then some (p.wl, { l with pc := .srd, filesReal := false })
      else some (p.wl, l.goto (.checks rest p.changed))
  | .srd =>
    if wl.upgradeStatus = .success then some (wl, { l with pc := .change, srdReal := false })
    else some (wl, l.goto .punish)
  | .punish =>
    (srdRandomDelete mem env.answer wl env.failed).map fun wl =>
      (wl, { l with pc := .change, srdReal := true })
  | .change => some (wl, l.goto .store)
  | .store => some (wl, l.goto .proof)
  | .proof => some (wl.reportAddValidatedProof, .start)

end

/-! ### The ecalls -/

def silentEcalls : List ECalls.EcallName :=
  [.srdSetChange, .cmpChainAccountId, .getQuoteReport, .genSgxMeasurement,
    .verifyAndUploadIdentity, .unsealFile, .idGetInfo, .getWorkload]

inductive Ecall (τ : Type) where
  | srdIncrease (env : Srd.IncreaseEnv) (path : Bytes)
  | srdDecrease (answer : Nat → CrustStatus) (change : Int)
  | srdUpdateMetadata (answer : Nat → CrustStatus) (hashs : Bytes)
  | restoreMetadata (env : Metadata.RestoreEnv) (tagOf : Nat → τ) (data : Option Bytes)
  | genAndUploadWorkReport (env : ReportEnv) (upload : Bytes → CrustStatus) (blockHash : Bytes)
      (blockHeight : UInt64)
  | genKeyPair (env : Metadata.KeyEnv) (accountId : Option Bytes)
  | sealFile (env : Seal.SealEnv) (tag : τ) (treeText path : Bytes)
  | confirmFile (hash : Bytes)
  | deleteFile (hash : Bytes)
  | enableUpgrade (blockHeight : UInt64)
  | disableUpgrade
  | restoreFromUpgrade (tagOf : Nat → τ) (call : Call)
  | silent (name : ECalls.EcallName) (h : name ∈ silentEcalls)

/-- The ecalls that return when the upgrade status is `ENC_UPGRADE_STATUS_PROCESS`. -/
def Ecall.guarded : Ecall τ → Bool
  | .srdIncrease _ _ | .genAndUploadWorkReport _ _ _ _ | .sealFile _ _ _ _ | .confirmFile _
  | .deleteFile _ | .restoreFromUpgrade _ _ => true
  | .silent name _ => decide (name = .unsealFile ∨ name = .getWorkload)
  | _ => false

def tryReportWork (wl : Workload τ) (blockHeight : UInt64) : CrustStatus :=
  if blockHeight = 0 ∨ blockHeight - wl.reportHeight - UInt64.ofNat workreportReportInterval
      < UInt64.ofNat eraLength then .upgradeBlockExpire
  else if ¬ 0 < wl.validatedProof then .upgradeNoValidate
  else if wl.restartFlag then .upgradeRestart
  else if ¬ wl.reportFiles then .upgradeNoFile
  else .success

/-! ### A report under way -/

/-- Who has asked for it; `upload` is what the host answers to the upload. -/
inductive Asker where
  | ecall (upload : Bytes → CrustStatus)
  | restore (upload : Bytes → CrustStatus)
  | handOver

def Asker.isEcall : Asker → Bool
  | .ecall _ => true
  | _ => false

def Asker.isRestore : Asker → Bool
  | .restore _ => true
  | _ => false

/-- Where `gen_and_upload_work_report` stands. Each access to a flag is a step of its own; from
`setHeight` on the flags are set back, with the report if there is one. -/
inductive ReportPc (τ : Type) where
  | height
  | restart
  | proof
  | files
  | compose
  | setHeight (made : Option (WorkReport τ × Signature))
  | setRestart (made : Option (WorkReport τ × Signature))
  | setFiles (made : Option (WorkReport τ × Signature))
  | reduce (made : Option (WorkReport τ × Signature))
  | upload (r : WorkReport τ) (sig : Signature)

structure ReportCall where
  asker : Asker
  env : ReportEnv
  blockHash : Bytes
  blockHeight : UInt64

structure ReportJob (τ : Type) where
  call : ReportCall
  pc : ReportPc τ

/-- `asking` are the calls that wait for `g_gen_work_report`, and `job` is the one that has it;
the parts of a hand-over behind its report keep it. `enabling` counts the calls of
`ecall_enable_upgrade` behind their tests, and `ending` are the calls of `id_gen_upgrade_data`
that have released the lock with success.

`workReports` were signed by `ecall_gen_and_upload_work_report`, `upgradeReports` on either
side of a hand-over. `passes` counts the passes of the main loop with both validations really
performed. `owed` counts the other passes since a report was last refused, and `restored` tells
that none has set the restart flag back since the metadata was restored. -/
structure State (τ : Type) where
  up : Upgrade.State τ
  loops : List Loop
  inside : List (Ecall τ)
  asking : List ReportCall
  job : Option (ReportJob τ)
  enabling : Nat
  phase : Phase τ
  ending : List (Serialized × Bytes)
  upgradeData : Option Bytes
  workReports : List (WorkReport τ)
  upgradeReports : List (WorkReport τ)
  passes : Nat
  owed : Nat
  restored : Bool

def isIdle : Phase τ → Bool
  | .idle => true
  | _ => false

namespace State

def wl (s : State τ) : Workload τ := s.up.wl

def withWl (s : State τ) (wl : Workload τ) : State τ := { s with up := { s.up with wl := wl } }

def goto (s : State τ) (c : ReportCall) (pc : ReportPc τ) : State τ := { s with job := some ⟨c, pc⟩ }

def locked (s : State τ) : Bool := s.job.isSome || !isIdle s.phase

def signs (s : State τ) (asker : Asker) (signed : List (WorkReport τ)) : State τ :=
  { s with
    workReports := s.workReports ++ if asker.isEcall then signed else []
    upgradeReports := s.upgradeReports ++ if asker.isEcall then [] else signed }

def init (keys : KeyPair) (pre : PubKey) : State τ where
  up := ⟨Workload.init keys pre, 0, []⟩
  loops := []
  inside := []
  asking := []
  job := none
  enabling := 0
  phase := .idle
  ending := []
  upgradeData := none
  workReports := []
  upgradeReports := []
  passes := 0
  owed := 0
  restored := false

end State

section
variable (sha256 : Bytes → Hash) (mem : Mem) (verify : Verify)

/-- `none` is an abort of the enclave. -/
def reportStep (s : State τ) (c : ReportCall) : ReportPc τ → Option (State τ)
  | .height =>
    if heightExpired s.wl.reportHeight c.blockHeight then some { s with job := none }
    else some (s.goto c .restart)
  | .restart => some (s.goto c (if s.wl.restartFlag then .setHeight none else .proof))
  | .proof => some (s.goto c (if 0 < s.wl.validatedProof then .files else .setHeight none))
  | .files => some (s.goto c (if s.wl.reportFiles then .compose else .setHeight none))
  | .compose =>
    (composeReport sha256 mem c.env s.wl c.blockHash c.blockHeight c.asker.isRestore).map fun r =>
      ((s.withWl r.2.1).signs c.asker (r.2.2.toList.map Prod.fst)).goto c (.setHeight r.2.2)
  | .setHeight made =>
    some ((s.withWl { s.wl with reportHeight := c.blockHeight }).goto c (.setRestart made))
  | .setRestart made =>
    let s := s.withWl { s.wl with restartFlag := false }
    some ({ s with restored := false }.goto c (.setFiles made))
  | .setFiles made => some ((s.withWl { s.wl with reportFiles := true }).goto c (.reduce made))
  | .reduce none =>
    some { s.withWl s.wl.reportReduceValidatedProof with job := none, owed := 0 }
  | .reduce (some (r, sig)) =>
    let s := s.withWl s.wl.reportReduceValidatedProof
    match c.asker with
    | .handOver =>
      some { s with job := none, phase := .waiting ⟨c.blockHeight, c.blockHash, r, sig⟩ }
    | _ => some (s.goto c (.upload r sig))
  | .upload r sig =>
    match c.asker with
    | .handOver => none
    | .ecall upload | .restore upload =>
      let wl := if upload (reportText r c.blockHash sig) = .success then s.wl.handleReportResult
        else s.wl
      some { s.withWl wl with job := none }

/-! ### The work of an ecall -/

/-- With what a document that has been checked comes to ask for a report: the workload, the block
hash and the height. -/
def documentCall (env : UpgradeEnv) (tagOf : Nat → τ) (wl : Workload τ) (doc : JSON) :
    Option (Workload τ × Bytes × UInt64) :=
  match checkDocument sha256 mem verify env tagOf wl doc with
  | some (.verified key, wl) =>
    if env.entryNetwork ≠ .success then none
    else
      some ((wl.setUpgrade key).reportAddValidatedProof, hashText doc,
        UInt64.ofNat (sizeT (atoi (heightText doc))))
  | _ => none

/-- `id_restore_from_upgrade` up to its report. -/
def reportCall (tagOf : Nat → τ) (s : Upgrade.State τ) (c : Call) :
    Option (Workload τ × Bytes × UInt64) :=
  if s.received.length = 0 ∧ ¬ encMalloc c.mallocBuffer c.totalSize then none
  else if ¬ c.transferEnd then none
  else
    match JsonParse.loadBuffer mem
      (contents (if s.received.length = 0 then c.totalSize else s.total) (s.received ++ c.data))
      (s.received ++ c.data).length with
    | .error _ => none
    | .ok doc => documentCall sha256 mem verify c.env tagOf s.wl doc

/-- The work of an ecall behind its test, without the report that it may ask for. -/
def body (s : State τ) : Ecall τ → Option (State τ)
  | .srdIncrease env path => some (s.withWl (Srd.srdIncrease sha256 env s.wl path))
  | .srdDecrease answer change =>
    (Srd.srdDecrease mem answer s.wl change []).map fun r => s.withWl r.2
  | .srdUpdateMetadata answer hashs => (Srd.srdUpdateMetadata mem answer s.wl hashs).map s.withWl
  | .restoreMetadata env tagOf data =>
    (Metadata.idRestoreMetadata mem tagOf env s.wl data).map fun r =>
      { s.withWl r.2 with restored := s.restored || decide (r.1 = .success) }
  | .genAndUploadWorkReport env upload blockHash blockHeight =>
    some { s with asking := s.asking ++ [⟨.ecall upload, env, blockHash, blockHeight⟩] }
  | .genKeyPair env accountId => some (s.withWl (Metadata.idGenKeyPair env s.wl accountId).2)
  | .sealFile env tag treeText path =>
    (Seal.storageSealFile sha256 mem env tag s.wl treeText path).map fun r => s.withWl r.wl
  | .confirmFile hash => some (s.withWl (Storage.storageConfirmFile s.wl hash))
  | .deleteFile hash => some (s.withWl (Storage.storageDeleteFile s.wl hash))
  | .enableUpgrade blockHeight =>
    some (if tryReportWork s.wl blockHeight = .success then { s with enabling := s.enabling + 1 }
      else s)
  | .disableUpgrade => some (s.withWl { s.wl with upgradeStatus := .none })
  | .restoreFromUpgrade tagOf call =>
    match reportCall sha256 mem verify tagOf s.up call with
    | some (wl, blockHash, blockHeight) =>
      some
        { s with
          up := ⟨wl, if s.up.received.length = 0 then call.totalSize else s.up.total, []⟩
          asking := s.asking ++ [⟨.restore call.env.upload, call.env.report, blockHash, blockHeight⟩] }
    | none => (idRestoreFromUpgrade sha256 mem verify tagOf s.up call).map fun r =>
      { s with up := r.2 }
  | .silent _ _ => some s

end

/-! ### The moves -/

/-- `lock` gives `g_gen_work_report` to a call that waits for it, and `report` is a step of the one
that has it. The last six are the parts of `id_gen_upgrade_data`. -/
inductive Move (τ : Type) where
  | enter (e : Ecall τ)
  | finish (k : Nat)
  | lock (k : Nat)
  | report
  | setProcess
  | mainLoop
  | loop (i : Nat) (env : LoopEnv)
  | genReport (env : GenDataEnv) (blockHeight : UInt64)
  | upload (env : GenDataEnv)
  | serializeSrd
  | serializeFile (env : GenDataEnv)
  | sign (env : GenDataEnv)
  | genDone (k : Nat)

section
variable (sha256 : Bytes → Hash) (mem : Mem) (verify : Verify) (floatText : Bytes → Bytes → Bytes)
  (usable : Nat → Nat)

def enterStep (s : State τ) (e : Ecall τ) : State τ :=
  if e.guarded ∧ s.wl.upgradeStatus = .process then s else { s with inside := s.inside ++ [e] }

def passStep (s : State τ) (i : Nat) (l : Loop) (wl : Workload τ) (l' : Loop) : State τ :=
  let s := { s.withWl wl with loops := s.loops.set i l' }
  if l.pc ≠ .proof then s
  else if l.real then { s with passes := s.passes + 1 }
  else { s with owed := s.owed + 1 }

/-- Up to the report of the hand-over. -/
def genStep (env : GenDataEnv) (s : State τ) (blockHeight : UInt64) : State τ :=
  match reportTarget env s.wl blockHeight with
  | .error _ => s
  | .ok (height, hash) => s.goto ⟨.handOver, env.report, hash, height⟩ .height

/-- A part that fails ends the call; `none` is a call that has to wait, or an abort. -/
def step (s : State τ) : Move τ → Option (State τ)
  | .enter e => some (enterStep s e)
  | .finish k =>
    match s.inside[k]? with
    | none => none
    | some e => body sha256 mem verify { s with inside := s.inside.eraseIdx k } e
  | .lock k =>
    match s.asking[k]? with
    | none => none
    | some c =>
      if s.locked then none else some ({ s with asking := s.asking.eraseIdx k }.goto c .height)
  | .report =>
    match s.job with
    | none => none
    | some j => reportStep sha256 mem s j.call j.pc
  | .setProcess =>
    if s.enabling = 0 then none
    else
      some { s.withWl { s.wl with upgradeStatus := .process } with enabling := s.enabling - 1 }
  | .mainLoop => some { s with loops := s.loops ++ [.start] }
  | .loop i env =>
    match s.loops[i]? with
    | none => none
    | some l => (loopStep sha256 mem env s.wl l).map fun r => passStep s i l r.1 r.2
  | .genReport env blockHeight => if s.locked then none else some (genStep env s blockHeight)
  | .upload env =>
    match s.phase with
    | .waiting last =>
      match uploadLastReport env s.wl last with
      | (.success, wl) => some { s.withWl wl with phase := .uploaded last }
      | (_, wl) => some { s.withWl wl with phase := .idle }
    | _ => none
  | .serializeSrd =>
    match s.phase with
    | .uploaded last => some { s with phase := .srdDone last (serializeSrd mem s.wl) }
    | _ => none
  | .serializeFile env =>
    match s.phase with
    | .srdDone last srd =>
      match serializeFile floatText usable env.mallocFiles s.wl with
      | none => none
      | some (.success, files) => some { s with phase := .filesDone last srd files }
      | some _ => some { s with phase := .idle }
    | _ => none
  | .sign env =>
    match s.phase with
    | .filesDone last srd files =>
      match signUpgrade sha256 mem env s.wl ⟨last.height, last.hash, srd, files⟩ with
      | none => none
      | some (.success, _, some data) =>
        some
          { s with
            phase := .idle
            ending := s.ending ++ [(⟨last.height, last.hash, srd, files⟩, data)] }
      | some _ => some { s with phase := .idle }
    | _ => none
  | .genDone k =>
    match s.ending[k]? with
    | none => none
    | some (_, data) =>
      some
        { s.withWl { s.wl with upgradeStatus := .success } with
          ending := s.ending.eraseIdx k
          upgradeData := some data }

end

/-! ### The parts of a hand-over -/

def Move.isPart : Move τ → Bool
  | .upload _ | .serializeSrd | .serializeFile _ | .sign _ => true
  | _ => false

section
variable {sha256 : Bytes → Hash} {mem : Mem} {verify : Verify}
  {floatText : Bytes → Bytes → Bytes} {usable : Nat → Nat} {s s' : State τ}

/-- Behind its report a hand-over acknowledges that report, and writes nothing else in the
workload. -/
theorem part_cases {m : Move τ} (hm : m.isPart = true)
    (hstep : step sha256 mem verify floatText usable s m = some s') :
    isIdle s.phase = false ∧ ∃ wl phase ending, (wl = s.wl ∨ wl = s.wl.handleReportResult) ∧
      s' = { s.withWl wl with phase := phase, ending := ending } := by
  cases m with
  | upload env =>
    simp only [step] at hstep
    split at hstep
    · rename_i last hp
      rw [hp]
      unfold uploadLastReport at hstep
      split_ifs at hstep
      · cases hstep
        exact ⟨rfl, _, _, _, .inr rfl, rfl⟩
      · cases hstep
        exact ⟨rfl, _, _, _, .inl rfl, rfl⟩
    · cases hstep
  | serializeSrd =>
    simp only [step] at hstep
    split at hstep
    · rename_i last hp
      rw [hp]
      cases hstep
      exact ⟨rfl, _, _, _, .inl rfl, rfl⟩
    · cases hstep
  | serializeFile env =>
    simp only [step] at hstep
    split at hstep
    · rename_i last srd hp
      rw [hp]
      split at hstep
      · cases hstep
      · cases hstep
        exact ⟨rfl, _, _, _, .inl rfl, rfl⟩
      · cases hstep
        exact ⟨rfl, _, _, _, .inl rfl, rfl⟩
    · cases hstep
  | sign env =>
    simp only [step] at hstep
    split at hstep
    · rename_i last srd files hp
      rw [hp]
      split at hstep
      · cases hstep
      · cases hstep
        exact ⟨rfl, _, _, _, .inl rfl, rfl⟩
      · cases hstep
        exact ⟨rfl, _, _, _, .inl rfl, rfl⟩
    · cases hstep
  | _ => cases hm

end

end CrustSworker.Surface

import CrustSworker.Workload

/-!
# Generating and uploading a work report

`gen_work_report` runs in two parts. The height check and the three conditions
decide whether a report is made at all; past the height check every exit, good or
bad, ends in `settleReport`. The scan over `checked_files` is the loop of the source
with its accumulators. The report also records which entries its two lists name,
which the source only has as text.

`ReportEnv` holds what the enclave does not control: allocations, and the SGX calls
that open the curve context and sign.
-/

namespace CrustSworker

variable {τ : Type}

structure ReportEnv where
  mallocSrd : Bool
  mallocFiles : Bool
  mallocSig : Bool
  mallocHash : Bool
  openContext : Bool
  sign : PriKey → Bytes → Option Signature

/-- The fields of a report. `added` and `deleted` are the entries behind the texts
`addedFiles` and `deletedFiles`. -/
structure WorkReport (τ : Type) where
  pubKey : PubKey
  prePubKey : Option PubKey
  blockHeight : UInt64
  blockHash : Hash
  reserved : Nat
  filesSize : Int
  srdRoot : Hash
  filesRoot : Hash
  addedFiles : Bytes
  deletedFiles : Bytes
  added : List (FileItem τ)
  deleted : List (FileItem τ)

namespace Report

/-! ### The scan over the checked files -/

/-- Entries dropped before the scan: deleted, and never reported as valid. The characters are those
of `ToString()`, which has a text for a number too; the rest of the code reads them by `get_char`. -/
def isGone (f : FileItem τ) : Bool :=
  let status := f.status.toStr
  let current := status.getD currentStatus 0
  let origin := status.getD originStatus 0
  (current == statusDeleted && origin == statusLost)
    || (current == statusDeleted && origin == statusDeleted)
    || (current == statusDeleted && origin == statusUnconfirmed)

def eraseGone (files : List (FileItem τ)) : List (FileItem τ) := files.filter fun f => !isGone f

theorem isGone_read {f : FileItem τ} (h : isGone f = true) :
    f.status.toStr.getD currentStatus 0 = statusDeleted ∧
      48 ≤ f.status.toStr.getD originStatus 0 ∧ f.status.toStr.getD originStatus 0 ≤ 57 ∧
      f.status.toStr.getD originStatus 0 ≠ statusValid := by
  simp only [isGone, Bool.or_eq_true, Bool.and_eq_true, beq_iff_eq] at h
  obtain (⟨hc, ho⟩ | ⟨hc, ho⟩) | ⟨hc, ho⟩ := h
  all_goals
    rw [hc, ho]
    decide

theorem head_deleted {a : UInt8} {t : Bytes}
    (h : (jsonEscape (a :: t)).getD currentStatus 0 = statusDeleted) :
    escapeChar a = [a] ∧ a = statusDeleted := by
  rcases escapeChar_kept_or a with ha | ⟨e, ha, -⟩
  · refine ⟨ha, ?_⟩
    rw [jsonEscape, List.flatMap_cons, ha] at h
    exact h
  · rw [jsonEscape, List.flatMap_cons, ha] at h
    have hne : (92 : UInt8) = statusDeleted := h
    cases hne

theorem isGone_current {f : FileItem τ} (h : isGone f = true) :
    f.current = statusDeleted ∨ f.current = 0 := by
  obtain ⟨hcur, -⟩ := isGone_read h
  unfold FileItem.current FileItem.statusChar
  cases hs : f.status with
  | string s =>
    rw [hs] at hcur
    cases s with
    | nil => exact .inr rfl
    | cons a t => exact .inl (head_deleted hcur).2
  | _ => exact .inr rfl

theorem isGone_deleted {f : FileItem τ} (hf : f.HasStatus) (h : isGone f = true) :
    f.current = statusDeleted := by
  obtain ⟨hcur, -⟩ := isGone_read h
  obtain ⟨s, hs, hlen⟩ := hf
  obtain ⟨a, t, rfl⟩ : ∃ a t, s = a :: t := List.exists_cons_of_length_pos (by omega)
  unfold FileItem.current FileItem.statusChar
  rw [hs] at hcur ⊢
  exact (head_deleted hcur).2

theorem isGone_origin {f : FileItem τ} (h : isGone f = true) : f.origin ≠ statusValid := by
  intro ho
  obtain ⟨hcur, hlow, hhigh, hne⟩ := isGone_read h
  obtain ⟨s, hs, hlen⟩ := FileItem.status_of_char (f := f) (i := originStatus) (by
    rw [← FileItem.origin, ho]
    decide)
  unfold FileItem.origin FileItem.statusChar at ho
  rw [hs] at hcur hlow hhigh hne ho
  match s, hlen, ho with
  | a :: b :: c :: t, _, ho =>
    obtain rfl : c = statusValid := ho
    obtain ⟨ha, -⟩ := head_deleted hcur
    rw [JSON.toStr, jsonEscape, List.flatMap_cons, List.flatMap_cons, ha] at hlow hhigh hne
    rcases escapeChar_kept_or b with hb | ⟨e, hb, he⟩
    · rw [hb] at hne
      exact hne rfl
    · rw [hb] at hlow hhigh
      have hlow' : (48 : UInt8) ≤ e := hlow
      have hhigh' : e ≤ 57 := hhigh
      exact he.elim (fun he => absurd hlow' (UInt8.not_le.mpr he))
        fun he => absurd hhigh' (UInt8.not_le.mpr he)

def isPending (f : FileItem τ) : Bool :=
  (f.current == statusValid && f.origin == statusUnconfirmed)
    || (f.current == statusValid && f.origin == statusLost)
    || (f.current == statusLost && f.origin == statusValid)
    || (f.current == statusDeleted && f.origin == statusValid)

def fileStr (f : FileItem τ) : Bytes :=
  str "\x7b\"" ++ fileHash ++ str "\":" ++ str "\"" ++ (f.json.get fileOldHash).toStr ++ str "\","
    ++ str "\"" ++ fileSize ++ str "\":" ++ decInt f.oldSize ++ str "\x7d"

def appendFile (text file : Bytes) : Bytes :=
  if text.length ≠ 1 then text ++ str "," ++ file else text ++ file

structure Scan (τ : Type) where
  items : List (FileItem τ)
  filesSize : Int
  validIdx : List Nat
  addedFiles : Bytes
  deletedFiles : Bytes
  added : List (FileItem τ)
  deleted : List (FileItem τ)
  reportedIdx : List Nat
  acc : Nat

def Scan.start : Scan τ := ⟨[], 0, [], str "[", str "[", [], [], [], 0⟩

def insertIdx (s : List Nat) (i : Nat) : List Nat := if i ∈ s then s else s ++ [i]

def enqueue (s : Scan τ) (i : Nat) (f : FileItem τ) : Scan τ :=
  let s :=
    if f.current = statusLost ∨ f.current = statusDeleted then
      { s with
        deletedFiles := appendFile s.deletedFiles (fileStr f)
        deleted := s.deleted ++ [f]
        validIdx := s.validIdx.erase i
        filesSize := s.filesSize - f.oldSize }
    else if f.current = statusValid then
      { s with
        addedFiles := appendFile s.addedFiles (fileStr f)
        added := s.added ++ [f]
        validIdx := insertIdx s.validIdx i
        filesSize := s.filesSize + f.oldSize }
    else s
  { s with reportedIdx := insertIdx s.reportedIdx i, acc := s.acc + 1 }

def scanFile (isUpgrading : Bool) (s : Scan τ) (f : FileItem τ) : Scan τ :=
  let i := s.items.length
  if isUpgrading then
    let s :=
      if f.current = statusValid ∧ f.origin = statusValid then
        { s with validIdx := insertIdx s.validIdx i, filesSize := s.filesSize + f.oldSize }
      else s
    { s with items := s.items ++ [f] }
  else
    -- Write current status to waiting status
    let f := f.setStatusChar waitingStatus f.current
    let s :=
      if f.origin = statusValid then
        { s with filesSize := s.filesSize + f.oldSize, validIdx := insertIdx s.validIdx i }
      else s
    let s := if s.acc < workreportFileLimit ∧ isPending f then enqueue s i f else s
    { s with items := s.items ++ [f] }

def scanFiles (isUpgrading : Bool) (files : List (FileItem τ)) : Scan τ :=
  files.foldl (scanFile isUpgrading) Scan.start

def itemsAt (items : List (FileItem τ)) (idx : List Nat) : List (FileItem τ) :=
  idx.filterMap fun i => items[i]?

def rootOf (sha256 : Bytes → Hash) (hs : List Hash) : Hash :=
  if hs.length * hashLength = 0 then zeroHash
  else sgxSha256Msg sha256 (Workload.concatHashs hs)

/-! ### The signature buffer and the report text -/

def sigBuffer (r : WorkReport τ) : Bytes :=
  r.pubKey.val ++ (match r.prePubKey with | some k => k.val | none => [])
    ++ decNat r.blockHeight.toNat ++ r.blockHash.val ++ decNat r.reserved ++ decInt r.filesSize
    ++ r.srdRoot.val ++ r.filesRoot.val ++ r.addedFiles ++ r.deletedFiles

def jsonKey (key : Bytes) : Bytes := str "\"" ++ key ++ str "\":"

def quoted (text : Bytes) : Bytes := str "\"" ++ text ++ str "\""

/-- `g_work_report`, with the block hash as the 64 characters it was passed as. -/
def reportText (r : WorkReport τ) (blockHash : Bytes) (sig : Signature) : Bytes :=
  str "\x7b" ++ jsonKey (str "pub_key") ++ quoted (hexstringSafe r.pubKey.val) ++ str ","
    ++ jsonKey (str "pre_pub_key")
    ++ quoted (match r.prePubKey with | some k => hexstringSafe k.val | none => []) ++ str ","
    ++ jsonKey (str "block_height") ++ quoted (decNat r.blockHeight.toNat) ++ str ","
    ++ jsonKey (str "block_hash") ++ quoted (blockHash.take 64) ++ str ","
    ++ jsonKey (str "reserved") ++ decNat r.reserved ++ str ","
    ++ jsonKey (str "files_size") ++ decInt r.filesSize ++ str ","
    ++ jsonKey (str "reserved_root") ++ quoted (hexstringSafe r.srdRoot.val) ++ str ","
    ++ jsonKey (str "files_root") ++ quoted (hexstringSafe r.filesRoot.val) ++ str ","
    ++ jsonKey (str "added_files") ++ r.addedFiles ++ str ","
    ++ jsonKey (str "deleted_files") ++ r.deletedFiles ++ str ","
    ++ jsonKey (str "sig") ++ quoted (hexstringSafe sig.val) ++ str "\x7d"

/-! ### `gen_work_report` -/

def heightExpired (reportHeight blockHeight : UInt64) : Bool :=
  decide (blockHeight = 0) || decide (blockHeight - reportHeight < UInt64.ofNat eraLength)

def reportCondition (wl : Workload τ) : CrustStatus :=
  if wl.restartFlag then .firstWorkReportAfterReport
  else if ¬ 0 < wl.validatedProof then .workReportNotValidated
  else if ¬ wl.reportFiles then .noKarst
  else .success

/-- What every exit behind the height check does to the workload. -/
def settleReport (wl : Workload τ) (blockHeight : UInt64) : Workload τ :=
  Workload.reportReduceValidatedProof
    { wl with reportHeight := blockHeight, restartFlag := false, reportFiles := true }

def srdWorkload (n : Nat) : Nat := n * 1024 * 1024 * 1024 % 2 ^ 64

abbrev GenResult (τ : Type) := CrustStatus × Workload τ × Option (WorkReport τ × Signature)

def afterScan (wl : Workload τ) (scan : Scan τ) : Workload τ :=
  { wl with checkedFiles := scan.items, reportedFilesIdx := scan.reportedIdx }

def buildReport (sha256 : Bytes → Hash) (mem : Mem) (wl : Workload τ) (blockHash : Bytes)
    (blockHeight : UInt64) (scan : Scan τ) (hs : List Hash) : WorkReport τ :=
  let srd := Workload.srdHashs mem wl.srdPath2hashs
  { pubKey := wl.idKeyPair.pubKey
    prePubKey := if wl.upgrade then some wl.prePubKey else none
    blockHeight := blockHeight
    blockHash := hexHash mem blockHash
    reserved := if srd.length = 0 then 0 else srdWorkload srd.length
    filesSize := scan.filesSize
    srdRoot := if srd.length = 0 then zeroHash else sgxSha256Msg sha256 (Workload.concatHashs srd)
    filesRoot := rootOf sha256 hs
    addedFiles := scan.addedFiles ++ str "]"
    deletedFiles := scan.deletedFiles ++ str "]"
    added := scan.added
    deleted := scan.deleted }

def signReport (env : ReportEnv) (wl : Workload τ) (r : WorkReport τ) : GenResult τ :=
  if ¬ encMalloc env.mallocSig (sigBuffer r).length then (.mallocFailed, wl, none)
  else if ¬ env.mallocHash then (.unexpectedError, wl, none)
  else if ¬ env.openContext then (.sgxSignFailed, wl, none)
  else
    match env.sign wl.idKeyPair.priKey (sigBuffer r) with
    | none => (.sgxSignFailed, wl, none)
    | some sig => (.success, wl, some (r, sig))

/-- The part behind the four checks, up to `cleanup`. `none` is a null pointer dereference. -/
def composeReport (sha256 : Bytes → Hash) (mem : Mem) (env : ReportEnv) (wl : Workload τ)
    (blockHash : Bytes) (blockHeight : UInt64) (isUpgrading : Bool) : Option (GenResult τ) :=
  let srd := Workload.srdHashs mem wl.srdPath2hashs
  if ¬ encMalloc env.mallocSrd (srd.length * hashLength) then some (.mallocFailed, wl, none)
  else
    let scan := scanFiles isUpgrading (eraseGone wl.checkedFiles)
    let wl := afterScan wl scan
    if scan.validIdx.length * hashLength ≠ 0
        ∧ ¬ encMalloc env.mallocFiles (scan.validIdx.length * hashLength) then
      some (.mallocFailed, wl, none)
    else
      match Workload.fileHashs (itemsAt scan.items scan.validIdx) with
      | none => none
      | some hs => some (signReport env wl (buildReport sha256 mem wl blockHash blockHeight scan hs))

def makeReport (sha256 : Bytes → Hash) (mem : Mem) (env : ReportEnv) (wl : Workload τ)
    (blockHash : Bytes) (blockHeight : UInt64) (isUpgrading : Bool) : Option (GenResult τ) :=
  (composeReport sha256 mem env wl blockHash blockHeight isUpgrading).map fun res =>
    (res.1, settleReport res.2.1 blockHeight, res.2.2)

def genWorkReport (sha256 : Bytes → Hash) (mem : Mem) (env : ReportEnv) (wl : Workload τ)
    (blockHash : Bytes) (blockHeight : UInt64) (isUpgrading : Bool) : Option (GenResult τ) :=
  if heightExpired wl.reportHeight blockHeight then some (.blockHeightExpired, wl, none)
  else
    match reportCondition wl with
    | .success => makeReport sha256 mem env wl blockHash blockHeight isUpgrading
    | status => some (status, settleReport wl blockHeight, none)

structure Outcome (sha256 : Bytes → Hash) (mem : Mem) (wl : Workload τ) (blockHash : Bytes)
    (blockHeight : UInt64) (isUpgrading : Bool) (res : GenResult τ) : Prop where
  settled : res.2.1 = settleReport wl blockHeight ∨
    res.2.1 = settleReport (afterScan wl (scanFiles isUpgrading (eraseGone wl.checkedFiles)))
      blockHeight
  success_iff : res.1 = .success ↔ res.2.2.isSome
  report : ∀ r sig, res.2.2 = some (r, sig) →
    res.2.1 = settleReport (afterScan wl (scanFiles isUpgrading (eraseGone wl.checkedFiles)))
      blockHeight ∧
    (Workload.srdHashs mem wl.srdPath2hashs).length * hashLength ≤ heapMaxSize ∧
    (scanFiles isUpgrading (eraseGone wl.checkedFiles)).validIdx.length * hashLength
      ≤ heapMaxSize ∧
    ∃ hs, Workload.fileHashs (itemsAt (scanFiles isUpgrading (eraseGone wl.checkedFiles)).items
        (scanFiles isUpgrading (eraseGone wl.checkedFiles)).validIdx) = some hs ∧
      r = buildReport sha256 mem wl blockHash blockHeight
        (scanFiles isUpgrading (eraseGone wl.checkedFiles)) hs

section
variable {sha256 : Bytes → Hash} {mem : Mem} {env : ReportEnv} {wl : Workload τ}
  {blockHash : Bytes} {blockHeight : UInt64} {isUpgrading : Bool} {res : GenResult τ}

theorem Outcome.of_fail {status : CrustStatus} {wl' : Workload τ} (hs : status ≠ .success)
    (hw : wl' = wl ∨ wl' = afterScan wl (scanFiles isUpgrading (eraseGone wl.checkedFiles))) :
    Outcome sha256 mem wl blockHash blockHeight isUpgrading
      (status, settleReport wl' blockHeight, none) where
  settled := by
    obtain rfl | rfl := hw
    · exact .inl rfl
    · exact .inr rfl
  success_iff := by simp [hs]
  report := by
    intro r sig h
    cases h

theorem signReport_cases (env : ReportEnv) (wl : Workload τ) (r : WorkReport τ) :
    (∃ status, status ≠ .success ∧ signReport env wl r = (status, wl, none)) ∨
    ∃ sig, signReport env wl r = (.success, wl, some (r, sig)) := by
  unfold signReport
  split_ifs
  · cases env.sign wl.idKeyPair.priKey (sigBuffer r) with
    | none => exact .inl ⟨.sgxSignFailed, by decide, rfl⟩
    | some sig => exact .inr ⟨sig, rfl⟩
  · exact .inl ⟨.sgxSignFailed, by decide, rfl⟩
  · exact .inl ⟨.unexpectedError, by decide, rfl⟩
  · exact .inl ⟨.mallocFailed, by decide, rfl⟩

theorem makeReport_outcome
    (h : makeReport sha256 mem env wl blockHash blockHeight isUpgrading = some res) :
    Outcome sha256 mem wl blockHash blockHeight isUpgrading res := by
  obtain ⟨res, hc, rfl⟩ := Option.map_eq_some_iff.mp h
  unfold composeReport at hc
  dsimp only at hc
  split_ifs at hc with hsrd hfiles
  · cases hc
    exact .of_fail (show CrustStatus.mallocFailed ≠ .success by decide) (.inr rfl)
  · split at hc
    · cases hc
    rename_i hs hhs
    cases hc
    obtain ⟨status, hne, hfail⟩ | ⟨sig, hok⟩ := signReport_cases env
      (afterScan wl (scanFiles isUpgrading (eraseGone wl.checkedFiles)))
      (buildReport sha256 mem (afterScan wl (scanFiles isUpgrading (eraseGone wl.checkedFiles)))
        blockHash blockHeight (scanFiles isUpgrading (eraseGone wl.checkedFiles)) hs)
    · rw [hfail]
      exact .of_fail hne (.inr rfl)
    · rw [hok]
      refine ⟨.inr rfl, by simp, ?_⟩
      rintro r sig ⟨⟩
      have hlen : (scanFiles isUpgrading (eraseGone wl.checkedFiles)).validIdx.length * hashLength
          ≤ heapMaxSize := by
        by_cases h0 : (scanFiles isUpgrading (eraseGone wl.checkedFiles)).validIdx.length
            * hashLength = 0
        · omega
        · exact encMalloc_le (by_contra fun hm => hfiles ⟨h0, hm⟩)
      exact ⟨rfl, encMalloc_le hsrd, hlen, hs, hhs, rfl⟩
  · cases hc
    exact .of_fail (show CrustStatus.mallocFailed ≠ .success by decide) (.inl rfl)

theorem genWorkReport_outcome (hp : heightExpired wl.reportHeight blockHeight = false)
    (h : genWorkReport sha256 mem env wl blockHash blockHeight isUpgrading = some res) :
    Outcome sha256 mem wl blockHash blockHeight isUpgrading res := by
  unfold genWorkReport at h
  rw [if_neg (by simp [hp])] at h
  split at h
  · exact makeReport_outcome h
  · cases h
    exact .of_fail ‹_› (.inl rfl)

end

/-- `gen_and_upload_work_report`: `upload` is what `ocall_upload_workreport` answers
for the report text. -/
def genAndUploadWorkReport (sha256 : Bytes → Hash) (mem : Mem) (env : ReportEnv)
    (upload : Bytes → CrustStatus) (wl : Workload τ) (blockHash : Bytes) (blockHeight : UInt64)
    (isUpgrading : Bool) : Option (CrustStatus × Workload τ) :=
  match genWorkReport sha256 mem env wl blockHash blockHeight isUpgrading with
  | none => none
  | some (.success, wl, some (r, sig)) =>
    let status := upload (reportText r blockHash sig)
    some (status, if status = .success then wl.handleReportResult else wl)
  | some (status, wl, _) => some (status, wl)

def ecallGenAndUploadWorkReport (sha256 : Bytes → Hash) (mem : Mem) (env : ReportEnv)
    (upload : Bytes → CrustStatus) (wl : Workload τ) (blockHash : Bytes) (blockHeight : UInt64) :
    Option (CrustStatus × Workload τ) :=
  if wl.upgradeStatus = .process then some (.upgradeWaitForNextEra, wl)
  else genAndUploadWorkReport sha256 mem env upload wl blockHash blockHeight false

end Report

end CrustSworker

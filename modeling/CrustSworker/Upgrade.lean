import CrustSworker.JsonParse
import CrustSworker.Report
import CrustSworker.Runs
import CrustSworker.Sha256

/-!
# Restoring from upgrade data

`id_restore_from_upgrade` collects a document over several calls and, with the last
one, restores the workload from it. The restore comes first and the checks of the
signature and of the two roots come after it; no exit undoes anything. The main
theorem says exactly when a refused document leaves no trace.

`UpgradeEnv` holds what the enclave does not control in the last call, `mallocHash` the answer
for a G hash by its path and its place in the list. `verify` is `sgx_ecdsa_verify`.
-/

namespace CrustSworker.Upgrade

open Report

variable {τ : Type}

structure UpgradeEnv where
  mallocKey : Bool
  mallocHash : Bytes → Nat → Bool
  allocSrd : Bool
  allocFiles : Bool
  mallocSigbuf : Bool
  openContext : Bool
  mallocSig : Bool
  entryNetwork : CrustStatus
  report : ReportEnv
  upload : Bytes → CrustStatus

abbrev Verify := PubKey → Bytes → Signature → Bool

def atoi (s : Bytes) : Int :=
  let n : Int :=
    match s.dropWhile JsonParse.isSpace with
    | 45 :: t => -(decVal (JsonParse.digitsOf t) : Int)
    | 43 :: t => decVal (JsonParse.digitsOf t)
    | t => decVal (JsonParse.digitsOf t)
  Int.bmod (max (-2 ^ 63) (min (2 ^ 63 - 1) n)) (2 ^ 32)

/-! ### The document -/

def heightText (doc : JSON) : Bytes := (doc.get upgradeBlockHeight).toStr
def hashText (doc : JSON) : Bytes := (doc.get upgradeBlockHash).toStr

def pubKeyOf (mem : Mem) (env : UpgradeEnv) (doc : JSON) : Option PubKey :=
  match hexStringToBytes (doc.get upgradePublicKey).toStr with
  | none => none
  | some u => if env.mallocKey then some (mem.read u 64) else none

def signatureOf (mem : Mem) (env : UpgradeEnv) (doc : JSON) : Option Signature :=
  match hexStringToBytes (doc.get upgradeSig).toStr with
  | none => none
  | some u => if env.mallocSig then some (mem.read u 64) else none

def sigbuf (key : PubKey) (doc : JSON) (srdRoot filesRoot : Hash) : Bytes :=
  key.val ++ heightText doc ++ hashText doc ++ srdRoot.val ++ filesRoot.val

/-- The two restores. The first component tells whether the G hashes were decoded. -/
def restoreWorkload (env : UpgradeEnv) (tagOf : Nat → τ) (wl : Workload τ) (doc : JSON) :
    Bool × Workload τ :=
  match wl.restoreSrd env.mallocHash (doc.get upgradeSrd) with
  | (.success, wl) => (true, wl.restoreFile tagOf (doc.get upgradeFile))
  | (_, wl) => (false, wl)

inductive Verdict where
  | refused (status : CrustStatus)
  | verified (key : PubKey)

section
variable (sha256 : Bytes → Hash) (mem : Mem) (verify : Verify)

/-- The checks behind the two restores. `none` is a null pointer dereference. -/
def verifyWorkload (env : UpgradeEnv) (wl : Workload τ) (doc : JSON) (key : PubKey) :
    Option Verdict :=
  match wl.genWorkloadInfo sha256 mem env.allocSrd env.allocFiles with
  | none => none
  | some (srdRoot, filesRoot) =>
    let buf := sigbuf key doc srdRoot filesRoot
    if ¬ encMalloc env.mallocSigbuf buf.length then some (.refused .mallocFailed)
    else if ¬ env.openContext then some (.refused .sgxSignFailed)
    else
      match signatureOf mem env doc with
      | none => some (.refused .unexpectedError)
      | some sig =>
        if ¬ verify key buf sig then some (.refused .sgxVerifySigFailed)
        else if hexstringSafe srdRoot.val ≠ (doc.get upgradeSrdRoot).toStr then
          some (.refused .upgradeBadSrd)
        else if hexstringSafe filesRoot.val ≠ (doc.get upgradeFileRoot).toStr then
          some (.refused .upgradeBadFile)
        else some (.verified key)

def checkDocument (env : UpgradeEnv) (tagOf : Nat → τ) (wl : Workload τ) (doc : JSON) :
    Option (Verdict × Workload τ) :=
  match pubKeyOf mem env doc with
  | none => some (.refused .unexpectedError, wl)
  | some key =>
    match restoreWorkload env tagOf wl doc with
    | (false, wl) => some (.refused .upgradeRestoreSrdFailed, wl)
    | (true, wl) =>
      match verifyWorkload sha256 mem verify env wl doc key with
      | none => none
      | some v => some (v, wl)

def enterNetwork (env : UpgradeEnv) (wl : Workload τ) (doc : JSON) (key : PubKey) :
    Option (CrustStatus × Workload τ) :=
  let wl := wl.setUpgrade key
  if env.entryNetwork ≠ .success then some (env.entryNetwork, wl)
  else
    genAndUploadWorkReport sha256 mem env.report env.upload wl.reportAddValidatedProof
      (hashText doc) (UInt64.ofNat (sizeT (atoi (heightText doc)))) true

end

/-! ### The calls -/

structure State (τ : Type) where
  wl : Workload τ
  total : Nat
  received : Bytes

structure Call where
  data : Bytes
  totalSize : Nat
  transferEnd : Bool
  mallocBuffer : Bool
  env : UpgradeEnv

structure Reply where
  status : CrustStatus
  refused : Bool

def contents (total : Nat) (received : Bytes) : Bytes :=
  received ++ List.replicate (total - received.length) 0

section
variable (sha256 : Bytes → Hash) (mem : Mem) (verify : Verify) (tagOf : Nat → τ)

def restoreDocument (env : UpgradeEnv) (wl : Workload τ) (doc : JSON) :
    Option (Reply × Workload τ) :=
  match checkDocument sha256 mem verify env tagOf wl doc with
  | none => none
  | some (.refused status, wl) => some (⟨status, true⟩, wl)
  | some (.verified key, wl) =>
    match enterNetwork sha256 mem env wl doc key with
    | none => none
    | some (status, wl) => some (⟨status, false⟩, wl)

def idRestoreFromUpgrade (s : State τ) (c : Call) : Option (Reply × State τ) :=
  if s.received.length = 0 ∧ ¬ encMalloc c.mallocBuffer c.totalSize then
    some (⟨.mallocFailed, false⟩, s)
  else
    let total := if s.received.length = 0 then c.totalSize else s.total
    let received := s.received ++ c.data
    if ¬ c.transferEnd then some (⟨.upgradeNeedLeftData, false⟩, ⟨s.wl, total, received⟩)
    else
      match JsonParse.loadBuffer mem (contents total received) received.length with
      | .error _ => none
      | .ok doc =>
        match restoreDocument sha256 mem verify tagOf c.env s.wl doc with
        | none => none
        | some (reply, wl) => some (reply, ⟨wl, total, []⟩)

def ecallRestoreFromUpgrade (s : State τ) (c : Call) : Option (Reply × State τ) :=
  if s.wl.upgradeStatus = .process then some (⟨.upgradeWaitForNextEra, false⟩, s)
  else idRestoreFromUpgrade sha256 mem verify tagOf s c

def chunkStep (s : State τ) (c : Call) : Option (State τ) :=
  if c.transferEnd then none
  else (ecallRestoreFromUpgrade sha256 mem verify tagOf s c).map Prod.snd

end

/-! ### What a refused document leaves -/

structure Untouched (wl wl' : Workload τ) : Prop where
  srd : wl'.srdPath2hashs = wl.srdPath2hashs
  srdInfo : wl'.srdInfoJson = wl.srdInfoJson
  files : wl'.checkedFiles.map FileItem.json = wl.checkedFiles.map FileItem.json
  spec : wl'.wlSpecInfo = wl.wlSpecInfo

def recount (spec : JSON) (files : List JSON) : JSON :=
  files.foldl (fun spec f =>
    let change := toInt32 (f.get fileOldSize).toInt
    bumpSpec spec (fileStatusName ((f.get fileStatus).getChar currentStatus))
      (specSign change) change) spec

/-- A document that says what the workload already holds, with entries whose sizes and counts cancel
out. -/
structure SaysHeld (wl : Workload τ) (doc : JSON) : Prop where
  srd : Workload.statedHashs (doc.get upgradeSrd).objectRange [] = wl.srdPath2hashs
  srdInfo : Workload.assignSrdInfo wl.srdInfoJson wl.srdPath2hashs = wl.srdInfoJson
  files : (doc.get upgradeFile).loopRange = wl.checkedFiles.map FileItem.json
  spec : recount wl.wlSpecInfo (doc.get upgradeFile).loopRange = wl.wlSpecInfo

/-- A document whose refusal leaves no trace: its key is not decoded; or one of its G hashes is not,
and there were none before; or they are, and it says what the enclave already holds. -/
def Harmless (mem : Mem) (env : UpgradeEnv) (wl : Workload τ) (doc : JSON) : Prop :=
  pubKeyOf mem env doc = none ∨
    (¬ Workload.Decodable env.mallocHash (doc.get upgradeSrd).objectRange ∧ wl.srdPath2hashs = []) ∨
    (Workload.Decodable env.mallocHash (doc.get upgradeSrd).objectRange ∧ SaysHeld wl doc)

theorem foldl_setWlSpec (items : List (FileItem τ)) (wl : Workload τ) :
    items.foldl (fun wl f => wl.setWlSpec f.current f.oldSize) wl =
      { wl with wlSpecInfo := recount wl.wlSpecInfo (items.map FileItem.json) } := by
  induction items generalizing wl with
  | nil => rfl
  | cons f items ih =>
    rw [List.foldl_cons, ih]
    rfl

theorem restoreFile_eq (tagOf : Nat → τ) (wl : Workload τ) (doc : JSON) :
    wl.restoreFile tagOf doc =
      { wl with
        checkedFiles := doc.loopRange.zipIdx.map fun p => ⟨tagOf p.2, p.1⟩
        wlSpecInfo := recount wl.wlSpecInfo doc.loopRange } := by
  have hjson : (doc.loopRange.zipIdx.map fun p => (⟨tagOf p.2, p.1⟩ : FileItem τ)).map
      FileItem.json = doc.loopRange := by
    rw [List.map_map]
    exact List.zipIdx_map_fst 0 doc.loopRange
  simp only [Workload.restoreFile, foldl_setWlSpec, hjson]

theorem restoreWorkload_untouched_iff (env : UpgradeEnv) (tagOf : Nat → τ) (wl : Workload τ)
    (doc : JSON) :
    Untouched wl (restoreWorkload env tagOf wl doc).2 ↔
      (¬ Workload.Decodable env.mallocHash (doc.get upgradeSrd).objectRange ∧
        wl.srdPath2hashs = []) ∨
      (Workload.Decodable env.mallocHash (doc.get upgradeSrd).objectRange ∧ SaysHeld wl doc) := by
  unfold restoreWorkload Workload.restoreSrd
  by_cases hd : Workload.Decodable env.mallocHash (doc.get upgradeSrd).objectRange
  · have hjson : ((doc.get upgradeFile).loopRange.zipIdx.map
        fun p => (⟨tagOf p.2, p.1⟩ : FileItem τ)).map FileItem.json =
        (doc.get upgradeFile).loopRange := by
      rw [List.map_map]
      exact List.zipIdx_map_fst 0 _
    rw [Workload.restorePaths_eq_some hd]
    simp only [restoreFile_eq, hd, not_true_eq_false, false_and, true_and, false_or]
    constructor
    · rintro ⟨hsrd, hinfo, hfiles, hspec⟩
      dsimp only at hsrd hinfo hspec
      rw [hsrd] at hinfo
      exact ⟨hsrd, hinfo, hjson.symm.trans hfiles, hspec⟩
    · rintro ⟨hsrd, hinfo, hfiles, hspec⟩
      refine ⟨hsrd, ?_, hjson.trans hfiles, hspec⟩
      dsimp only
      rw [hsrd]
      exact hinfo
  · rw [Workload.restorePaths_eq_none hd]
    simp only [hd, not_false_eq_true, true_and, false_and, or_false]
    constructor
    · intro h
      exact h.srd.symm
    · intro h
      exact ⟨h.symm, rfl, rfl, rfl⟩

section
variable {sha256 : Bytes → Hash} {mem : Mem} {verify : Verify} {tagOf : Nat → τ}

theorem checkDocument_cases {env : UpgradeEnv} {wl wl' : Workload τ} {doc : JSON} {v : Verdict}
    (h : checkDocument sha256 mem verify env tagOf wl doc = some (v, wl')) :
    (pubKeyOf mem env doc = none ∧ wl' = wl) ∨
      ((∃ key, pubKeyOf mem env doc = some key) ∧
        wl' = (restoreWorkload env tagOf wl doc).2) := by
  unfold checkDocument at h
  split at h
  · rename_i hkey
    cases h
    exact .inl ⟨hkey, rfl⟩
  · rename_i key hkey
    refine .inr ⟨⟨key, hkey⟩, ?_⟩
    split at h
    · rename_i wl₁ hr
      cases h
      rw [hr]
    · rename_i wl₁ hr
      split at h
      · cases h
      · cases h
        rw [hr]

theorem restoreDocument_refused {env : UpgradeEnv} {wl wl' : Workload τ} {doc : JSON}
    {reply : Reply} (h : restoreDocument sha256 mem verify tagOf env wl doc = some (reply, wl'))
    (hr : reply.refused = true) : Untouched wl wl' ↔ Harmless mem env wl doc := by
  unfold restoreDocument at h
  split at h
  · cases h
  · rename_i status wl₁ hc
    cases h
    obtain ⟨hkey, rfl⟩ | ⟨⟨key, hkey⟩, rfl⟩ := checkDocument_cases hc
    · exact ⟨fun _ => .inl hkey, fun _ => ⟨rfl, rfl, rfl, rfl⟩⟩
    · rw [restoreWorkload_untouched_iff, Harmless, hkey]
      simp only [reduceCtorEq, false_or]
  · split at h
    · cases h
    · cases h
      cases hr

theorem chunkStep_wl {s s' : State τ} {c : Call}
    (h : chunkStep sha256 mem verify tagOf s c = some s') : s'.wl = s.wl := by
  unfold chunkStep at h
  split_ifs at h with hend
  obtain ⟨⟨reply, t⟩, ht, rfl⟩ := Option.map_eq_some_iff.mp h
  unfold ecallRestoreFromUpgrade idRestoreFromUpgrade at ht
  dsimp only at ht
  split_ifs at ht <;> cases ht <;> rfl

/-- A document that is refused at the end of a transfer leaves the workload as it was
exactly when it is harmless. -/
theorem refused_untouched_iff {s s₁ s' : State τ} {chunks : List Call} {last : Call} {reply : Reply}
    (hchunks : Runs.run (chunkStep sha256 mem verify tagOf) s chunks = some s₁)
    (hlast : ecallRestoreFromUpgrade sha256 mem verify tagOf s₁ last = some (reply, s'))
    (hr : reply.refused = true) :
    ∃ doc, JsonParse.loadBuffer mem
        (contents (if s₁.received.length = 0 then last.totalSize else s₁.total)
          (s₁.received ++ last.data)) (s₁.received ++ last.data).length = .ok doc ∧
      (Untouched s.wl s'.wl ↔ Harmless mem last.env s.wl doc) := by
  have hwl : s₁.wl = s.wl := Runs.run_invariant
    (fun t c t' ht (hi : t.wl = s.wl) => (chunkStep_wl ht).trans hi) hchunks rfl
  unfold ecallRestoreFromUpgrade idRestoreFromUpgrade at hlast
  dsimp only at hlast
  split at hlast
  · cases hlast
    cases hr
  split at hlast
  · cases hlast
    cases hr
  split at hlast
  · cases hlast
    cases hr
  split at hlast
  · cases hlast
  rename_i doc hload
  split at hlast
  · cases hlast
  rename_i reply₁ wl₁ hdoc
  cases hlast
  rw [← hwl]
  exact ⟨doc, hload, restoreDocument_refused hdoc hr⟩

def emptyState : State Unit where
  wl := Workload.init ⟨⟨List.replicate 64 0, length_zeros64⟩, ⟨List.replicate 32 0, length_zeros32⟩⟩
    ⟨List.replicate 64 0, length_zeros64⟩
  total := 0
  received := []

def quietEnv : UpgradeEnv where
  mallocKey := true
  mallocHash := fun _ _ => true
  allocSrd := true
  allocFiles := true
  mallocSigbuf := true
  openContext := true
  mallocSig := true
  entryNetwork := .success
  report := ⟨true, true, true, true, true, fun _ _ => some ⟨List.replicate 64 0, length_zeros64⟩⟩
  upload := fun _ => .success

def callWith (data : Bytes) (transferEnd : Bool) : Call := ⟨data, 1000, transferEnd, true, quietEnv⟩

def unsignedDoc : Bytes × Bytes :=
  (str "\x7b\"pub_key\":\"" ++ List.replicate 128 48 ++ str "\",\"block_height\":\"1000\",",
    str "\"block_hash\":\"" ++ List.replicate 64 48 ++ str "\",\"upgrade_srd\":\x7b\"/srd\":[\"" ++
      List.replicate 64 49 ++ str "\"]\x7d,\"upgrade_file\":[\x7b\"hash\":\"$&JT&$" ++
      List.replicate 64 49 ++ str "\",\"old_size\":5,\"status\":\"100\"\x7d],\"upgrade_sig\":\"" ++
      List.replicate 128 48 ++ str "\"\x7d")

def zeroVerify : Verify := fun _ _ _ => false

def offerDoc : Option (Reply × State Unit) :=
  (Runs.run (chunkStep Sha256.sha256 ⟨fun _ _ => 0⟩ zeroVerify fun _ => ()) emptyState
    [callWith unsignedDoc.1 false]).bind fun s =>
      ecallRestoreFromUpgrade Sha256.sha256 ⟨fun _ _ => 0⟩ zeroVerify (fun _ => ()) s
        (callWith unsignedDoc.2 true)

theorem refused_untouched_unsigned :
    ∃ reply s' doc, offerDoc = some (reply, s') ∧
      (Untouched emptyState.wl s'.wl ↔ Harmless ⟨fun _ _ => 0⟩ quietEnv emptyState.wl doc) := by
  have hrun : offerDoc.map (fun r => r.1.refused) = some true := by decide +kernel
  obtain ⟨⟨reply, s'⟩, hoffer, hr⟩ := Option.map_eq_some_iff.mp hrun
  obtain ⟨s₁, hchunks, hlast⟩ := Option.bind_eq_some_iff.mp hoffer
  obtain ⟨doc, -, hiff⟩ := refused_untouched_iff hchunks hlast hr
  exact ⟨reply, s', doc, hoffer, hiff⟩

theorem refused_document_reported :
    ∃ reply s' res r sig, offerDoc = some (reply, s') ∧ reply = ⟨.sgxVerifySigFailed, true⟩ ∧
      ¬ Untouched emptyState.wl s'.wl ∧
      genWorkReport Sha256.sha256 ⟨fun _ _ => 0⟩ quietEnv.report s'.wl.reportAddValidatedProof
        [] 1000 false = some res ∧
      res.2.2 = some (r, sig) ∧ r.reserved = 2 ^ 30 ∧ r.added.length = 1 := by
  have hrun : (offerDoc.bind fun x => (genWorkReport Sha256.sha256 ⟨fun _ _ => 0⟩ quietEnv.report
      x.2.wl.reportAddValidatedProof [] 1000 false).bind fun res => res.2.2.map fun r =>
        (x.1.status, x.1.refused, x.2.wl.srdPath2hashs.length, r.1.reserved, r.1.added.length)) =
      some (.sgxVerifySigFailed, true, 1, 2 ^ 30, 1) := by decide +kernel
  obtain ⟨⟨reply, s'⟩, hoffer, h⟩ := Option.bind_eq_some_iff.mp hrun
  obtain ⟨res, hres, h⟩ := Option.bind_eq_some_iff.mp h
  obtain ⟨⟨r, sig⟩, hr, h⟩ := Option.map_eq_some_iff.mp h
  simp only [Prod.mk.injEq] at h
  obtain ⟨hstatus, hrefused, hsrd, hreserved, hadded⟩ := h
  refine ⟨reply, s', res, r, sig, hoffer, ?_, fun hu => ?_, hres, hr, hreserved, hadded⟩
  · cases reply
    simp_all
  · rw [hu.srd] at hsrd
    cases hsrd

end

end CrustSworker.Upgrade

import CrustSworker.EntryText
import CrustSworker.UpgradeSignature

/-!
# Generating upgrade data

`id_gen_upgrade_data` makes and uploads a last work report, serializes the workload and signs
it. Only the report holds the locks of the lists; between its parts other ecalls may run, so
the function is given by its parts, and `idGenUpgradeData` is what they do undisturbed.

`usable` is how many bytes the allocator really gives for a request: `serialize_file` counts
no bytes for its two brackets.
-/

namespace CrustSworker.Upgrade

open Metadata JsonParse OrderedMap

variable {τ : Type}

structure GenDataEnv where
  mallocHash : Bool
  blockHash : UInt64 → CrustStatus × ByteArr 64
  report : ReportEnv
  upload : Bytes → CrustStatus
  mallocFiles : Bool
  allocSrd : Bool
  allocFiles : Bool
  openContext : Bool
  mallocSig : Bool
  sign : PriKey → Bytes → Option Signature
  mallocBuffer : Bool

/-! ### The report -/

def eraLoop (blockHeight : UInt64) : Nat → UInt64 → UInt64
  | 0, height => height
  | fuel + 1, height =>
    if blockHeight - height > UInt64.ofNat eraLength then
      eraLoop blockHeight fuel (height + UInt64.ofNat eraLength)
    else height

def reportTarget (env : GenDataEnv) (wl : Workload τ) (blockHeight : UInt64) :
    Except CrustStatus (UInt64 × Bytes) :=
  if blockHeight ≤ wl.reportHeight then .error .unexpectedError
  else if blockHeight - wl.reportHeight - UInt64.ofNat workreportReportInterval
      < UInt64.ofNat eraLength then .error .upgradeWaitForNextEra
  else
    let height := eraLoop blockHeight blockHeight.toNat wl.reportHeight
    if ¬ encMalloc env.mallocHash (hashLength * 2) then .error .mallocFailed
    else
      match env.blockHash height with
      | (.success, hash) => .ok (height, hash.val)
      | _ => .error .upgradeGetBlockHashFailed

structure LastReport (τ : Type) where
  height : UInt64
  hash : Bytes
  report : WorkReport τ
  sig : Signature

section
variable (sha256 : Bytes → Hash) (mem : Mem)

/-- Up to the wait before the upload. `none` is a null pointer dereference. -/
def genLastReport (env : GenDataEnv) (wl : Workload τ) (blockHeight : UInt64) :
    Option (Except CrustStatus (LastReport τ) × Workload τ) :=
  match reportTarget env wl blockHeight with
  | .error status => some (.error status, wl)
  | .ok (height, hash) =>
    match Report.genWorkReport sha256 mem env.report wl hash height false with
    | none => none
    | some (.success, wl, some (r, sig)) => some (.ok ⟨height, hash, r, sig⟩, wl)
    | some (_, wl, _) => some (.error .upgradeGenWorkreportFailed, wl)

def uploadLastReport (env : GenDataEnv) (wl : Workload τ) (last : LastReport τ) :
    CrustStatus × Workload τ :=
  if env.upload (Report.reportText last.report last.hash last.sig) = .success then
    (.success, wl.handleReportResult)
  else (.upgradeGenWorkreportFailed, wl)

/-! ### The document -/

def serializeSrd (wl : Workload τ) : Bytes :=
  str "\x7b" ++ commaSep (wl.srdPath2hashs.map (srdEntry mem)) ++ str "\x7d"

def serializeFile (floatText : Bytes → Bytes → Bytes) (usable : Nat → Nat) (malloc : Bool)
    (wl : Workload τ) : Option (CrustStatus × Bytes) :=
  if ¬ encMalloc malloc (wl.checkedFiles.length * fileItemLen) then some (.mallocFailed, [])
  else
    let text := str "[" ++ commaSep (wl.checkedFiles.map fun f => strip (f.json.dump floatText))
      ++ str "]"
    if text.length ≤ usable (wl.checkedFiles.length * fileItemLen) then some (.success, text)
    else none

def signedBuffer (key : PubKey) (height : UInt64) (hash : Bytes) (srdRoot filesRoot : Hash) :
    Bytes :=
  key.val ++ decNat height.toNat ++ hash ++ srdRoot.val ++ filesRoot.val

def upgradeText (key : PubKey) (height : UInt64) (hash srd files : Bytes) (srdRoot filesRoot : Hash)
    (sig : Signature) : Bytes :=
  str "\x7b\"" ++ upgradePublicKey ++ str "\":" ++ str "\"" ++ hexstringSafe key.val ++ str "\""
    ++ str ",\"" ++ upgradeBlockHeight ++ str "\":" ++ decNat height.toNat
    ++ str ",\"" ++ upgradeBlockHash ++ str "\":" ++ str "\"" ++ hash ++ str "\""
    ++ str ",\"" ++ upgradeSrd ++ str "\":" ++ srd
    ++ str ",\"" ++ upgradeFile ++ str "\":" ++ files
    ++ str ",\"" ++ upgradeSrdRoot ++ str "\":" ++ str "\"" ++ hexstringSafe srdRoot.val ++ str "\""
    ++ str ",\"" ++ upgradeFileRoot ++ str "\":" ++ str "\"" ++ hexstringSafe filesRoot.val
    ++ str "\""
    ++ str ",\"" ++ upgradeSig ++ str "\":" ++ str "\"" ++ hexstringSafe sig.val ++ str "\"\x7d"

structure Serialized where
  height : UInt64
  hash : Bytes
  srd : Bytes
  files : Bytes
  deriving DecidableEq

def signUpgrade (env : GenDataEnv) (wl : Workload τ) (d : Serialized) :
    Option (CrustStatus × Workload τ × Option Bytes) :=
  match wl.genWorkloadInfo sha256 mem env.allocSrd env.allocFiles with
  | none => none
  | some (srdRoot, filesRoot) =>
    let buf := signedBuffer wl.idKeyPair.pubKey d.height d.hash srdRoot filesRoot
    if ¬ env.openContext then some (.sgxSignFailed, wl, none)
    else if ¬ encMalloc env.mallocSig buf.length then some (.mallocFailed, wl, none)
    else
      match env.sign wl.idKeyPair.priKey buf with
      | none => some (.sgxSignFailed, wl, none)
      | some sig =>
        let data := upgradeText wl.idKeyPair.pubKey d.height d.hash d.srd d.files srdRoot filesRoot
          sig
        if ¬ encMalloc env.mallocBuffer data.length then some (.mallocFailed, wl, none)
        else some (.success, { wl with upgradeStatus := .success }, some data)

def serializeUpgrade (floatText : Bytes → Bytes → Bytes) (usable : Nat → Nat) (env : GenDataEnv)
    (wl : Workload τ) (height : UInt64) (hash : Bytes) :
    Option (CrustStatus × Workload τ × Option Bytes) :=
  let srd := serializeSrd mem wl
  match serializeFile floatText usable env.mallocFiles wl with
  | none => none
  | some (.success, files) => signUpgrade sha256 mem env wl ⟨height, hash, srd, files⟩
  | some (status, _) => some (status, wl, none)

/-- The status, the workload afterwards and the document given to `ocall_store_upgrade_data`. -/
def idGenUpgradeData (floatText : Bytes → Bytes → Bytes) (usable : Nat → Nat) (env : GenDataEnv)
    (wl : Workload τ) (blockHeight : UInt64) :
    Option (CrustStatus × Workload τ × Option Bytes) :=
  match genLastReport sha256 mem env wl blockHeight with
  | none => none
  | some (.error status, wl) => some (status, wl, none)
  | some (.ok last, wl) =>
    match uploadLastReport env wl last with
    | (.success, wl) =>
      serializeUpgrade sha256 mem floatText usable env wl last.height last.hash
    | (status, wl) => some (status, wl, none)

end

/-! ### The era of the report -/

theorem eraLoop_spec (blockHeight : UInt64) (fuel : Nat) {height : UInt64}
    (h : height ≤ blockHeight) (hf : blockHeight.toNat ≤ height.toNat + eraLength * (fuel + 1)) :
    eraLoop blockHeight fuel height ≤ blockHeight ∧
      blockHeight.toNat - (eraLoop blockHeight fuel height).toNat ≤ eraLength := by
  have hera : (UInt64.ofNat eraLength).toNat = eraLength := rfl
  induction fuel generalizing height with
  | zero =>
    refine ⟨h, ?_⟩
    simp only [eraLoop, eraLength] at hf ⊢
    omega
  | succ fuel ih =>
    have hsub := UInt64.toNat_sub_of_le _ _ h
    have hlt := blockHeight.toNat_lt
    rw [UInt64.le_iff_toNat_le] at h
    simp only [eraLoop]
    split_ifs with hgt
    · rw [gt_iff_lt, UInt64.lt_iff_toNat_lt, hsub, hera] at hgt
      have hadd : (height + UInt64.ofNat eraLength).toNat = height.toNat + eraLength := by
        rw [UInt64.toNat_add, hera]
        omega
      refine ih ?_ ?_
      · rw [UInt64.le_iff_toNat_le, hadd]
        omega
      · have hmul : eraLength * (fuel + 1 + 1) = eraLength * (fuel + 1) + eraLength :=
          Nat.mul_succ _ _
        rw [hadd]
        omega
    · rw [gt_iff_lt, UInt64.lt_iff_toNat_lt, hsub, hera] at hgt
      exact ⟨UInt64.le_iff_toNat_le.mpr h, by omega⟩

theorem reportTarget_ok {env : GenDataEnv} {wl : Workload τ} {blockHeight height : UInt64}
    {hash : Bytes} (h : reportTarget env wl blockHeight = .ok (height, hash)) :
    height ≤ blockHeight ∧ ∃ b, env.blockHash height = (.success, b) ∧ hash = b.val := by
  unfold reportTarget at h
  dsimp only at h
  split_ifs at h with hle hwait hm
  split at h
  · rename_i b hb
    cases h
    have hlow : wl.reportHeight ≤ blockHeight := UInt64.le_of_lt (UInt64.not_le.mp hle)
    have hspec := eraLoop_spec blockHeight blockHeight.toNat hlow (by
      simp only [eraLength]
      omega)
    exact ⟨hspec.1, b, hb, rfl⟩
  · cases h

end CrustSworker.Upgrade

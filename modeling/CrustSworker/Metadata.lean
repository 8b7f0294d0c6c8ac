import CrustSworker.JsonParse
import CrustSworker.Workload

/-!
# The identity and its sealed metadata

`id_gen_key_pair`, `id_store_metadata`, `id_get_metadata` and `id_restore_metadata`.
Unsealing is outside the model: a document that is read back is given by its plain
bytes, or as `none` when the database or the unsealing fails.

`id_get_metadata` compares the key pair of the document with the one in the enclave, but
the verdict stays in a local variable. It is the first component of the model's result;
the second is the document, and nothing else reaches the caller.
-/

namespace CrustSworker.Metadata

variable {τ : Type}

/-! ### Generating a key pair -/

structure KeyEnv where
  openContext : SgxStatus
  createKeyPair : SgxStatus × KeyPair

def idGenKeyPair (env : KeyEnv) (wl : Workload τ) (accountId : Option Bytes) :
    SgxStatus × Workload τ :=
  if wl.isSetKeyPair then (.unexpected, wl)
  else
    match accountId with
    | none => (.unexpected, wl)
    | some id =>
      if id.length = 0 then (.unexpected, wl)
      else if env.openContext ≠ .success then (env.openContext, wl)
      else if env.createKeyPair.1 ≠ .success then (env.createKeyPair.1, wl)
      else (.success, { wl.setKeyPair env.createKeyPair.2 with accountId := id })

/-! ### Storing -/

def keyPairBytes (k : KeyPair) : Bytes := k.pubKey.val ++ k.priKey.val

def commaSep : List Bytes → Bytes
  | [] => []
  | [x] => x
  | x :: xs => x ++ str "," ++ commaSep xs

def srdEntry (mem : Mem) (p : Bytes × List Bytes) : Bytes :=
  str "\"" ++ p.1 ++ str "\":["
    ++ commaSep (p.2.map fun g => str "\"" ++ hexstringSafe (mem.read g 32).val ++ str "\"")
    ++ str "]"

def metadataJson (mem : Mem) (floatText : Bytes → Bytes → Bytes) (wl : Workload τ) : Bytes :=
  str "\x7b\"" ++ idWorkload ++ str "\":\x7b" ++ commaSep (wl.srdPath2hashs.map (srdEntry mem))
    ++ str "\x7d,\"" ++ idKeyPair ++ str "\":\"" ++ hexstringSafe (keyPairBytes wl.idKeyPair)
    ++ str "\",\"" ++ idReportHeight ++ str "\":" ++ decNat wl.reportHeight.toNat
    ++ str ",\"" ++ idChainAccountId ++ str "\":\"" ++ wl.accountId ++ str "\","
    ++ (if wl.upgrade then
        str "\"" ++ idPrePubKey ++ str "\":\"" ++ hexstringSafe wl.prePubKey.val ++ str "\","
      else [])
    ++ str "\"" ++ idFile ++ str "\":["
    ++ commaSep (wl.checkedFiles.map fun f => strip (f.json.dump floatText)) ++ str "]\x7d"

def fileItemLen : Nat :=
  fileHash.length + 3 + hashTag.length + 64 + 3
    + fileOldHash.length + 3 + hashTag.length + 64 + 3
    + fileSize.length + 3 + 12 + 1
    + fileOldSize.length + 3 + 12 + 1
    + fileBlockNum.length + 3 + 6 + 1
    + fileStatus.length + 3 + 3 + 3 + 2

def metaLen (wl : Workload τ) : Nat :=
  (wl.srdPath2hashs.map fun p => p.2.length * (64 + 3)).sum
    + wl.srdPath2hashs.length * (128 + 4)
    + (sworkerPrivateTag.length + 5 + idWorkload.length + 5 + idKeyPair.length + 3 + 256 + 3
      + idReportHeight.length + 3 + 20 + 1 + idChainAccountId.length + 3 + 64 + 3
      + (if wl.upgrade then idPrePubKey.length + 3 + 64 * 2 + 3 else 0) + idFile.length + 3)
    + wl.checkedFiles.length * fileItemLen

structure StoreEnv where
  mallocMeta : Bool
  persistSet : CrustStatus

def idStoreMetadata (mem : Mem) (floatText : Bytes → Bytes → Bytes) (env : StoreEnv)
    (wl : Workload τ) : CrustStatus × Option Bytes :=
  if wl.upgradeStatus = .success then (.success, none)
  else if ¬ encMalloc env.mallocMeta (metaLen wl) then (.mallocFailed, none)
  else (env.persistSet, some (sworkerPrivateTag ++ metadataJson mem floatText wl))

/-! ### Restoring -/

/-- `mallocHash` is the answer for a G hash, by its path and its place in the list. -/
structure RestoreEnv where
  mallocCheck : Bool
  mallocHash : Bytes → Nat → Bool
  mallocKey : Bool
  mallocPreKey : Bool
  wlSpecInfo : CrustStatus × Option Bytes

def keyPairOf (b : ByteArr 96) : KeyPair :=
  ⟨⟨b.val.take 64, by simp [b.property]⟩, ⟨b.val.drop 64, by simp [b.property]⟩⟩

def keyPairIn (mem : Mem) (doc : JSON) : Option KeyPair :=
  (hexStringToBytes (doc.get idKeyPair).toStr).map fun u => keyPairOf (mem.read u 96)

def idGetMetadata (mem : Mem) (env : RestoreEnv) (wl : Workload τ) (data : Option Bytes) :
    Option (CrustStatus × JSON) :=
  match data with
  | none => some (.unexpectedError, .null)
  | some data =>
    if data.length = 0 then some (.success, .null)
    else
      match JsonParse.loadBuffer mem (data.drop sworkerPrivateTag.length) data.length with
      | .error _ => none
      | .ok doc =>
        if doc.size = 0 then some (.success, doc)
        else
          -- Reading the field turns the document into an object that has it.
          let doc := doc.put idKeyPair (doc.get idKeyPair)
          match keyPairIn mem doc with
          | none => some (.invalidMetaData, doc)
          | some k =>
            if ¬ env.mallocCheck then some (.invalidMetaData, doc)
            else if wl.isSetKeyPair ∧ k ≠ wl.idKeyPair then some (.invalidMetaData, doc)
            else some (.success, doc)

def restoreSpec (mem : Mem) (env : RestoreEnv) (wl : Workload τ) : Option (Workload τ) :=
  match env.wlSpecInfo with
  | (.success, some text) =>
    match JsonParse.load mem text with
    | .error _ => none
    | .ok spec => some { wl with wlSpecInfo := spec }
  | _ => some wl

def isObject : JSON → Bool
  | .object _ => true
  | _ => false

/-- The G hashes, if the document has any; the first component tells whether they
were decoded. -/
def restoreSrdIn (env : RestoreEnv) (wl : Workload τ) (doc : JSON) : Bool × Workload τ :=
  if doc.hasKey idWorkload ∧ isObject (doc.get idWorkload) then
    match wl.restoreSrd env.mallocHash (doc.get idWorkload) with
    | (.success, wl) => (true, wl)
    | (_, wl) => (false, wl)
  else (true, wl)

def restoreFilesIn (tagOf : Nat → τ) (wl : Workload τ) (doc : JSON) : Workload τ :=
  match doc.get idFile with
  | .array items => { wl with checkedFiles := items.zipIdx.map fun p => ⟨tagOf p.2, p.1⟩ }
  | _ => wl

def restoreContents (mem : Mem) (tagOf : Nat → τ) (env : RestoreEnv) (wl : Workload τ)
    (doc : JSON) : Option (Bool × Workload τ) :=
  match restoreSpec mem env wl with
  | none => none
  | some wl =>
    match restoreSrdIn env wl doc with
    | (false, wl) => some (false, wl)
    | (true, wl) => some (true, restoreFilesIn tagOf wl doc)

def restoreIdentity (mem : Mem) (env : RestoreEnv) (wl : Workload τ) (doc : JSON) :
    CrustStatus × Workload τ :=
  match keyPairIn mem doc with
  | none => (.unexpectedError, wl)
  | some k =>
    if ¬ env.mallocKey then (.unexpectedError, wl)
    else
      let wl := { wl.setKeyPair k with
        reportHeight := UInt64.ofNat (sizeT (doc.get idReportHeight).toInt) }
      let finish (wl : Workload τ) : CrustStatus × Workload τ :=
        (.success, { wl with
          accountId := (doc.get idChainAccountId).toStr
          restartFlag := true })
      if doc.hasKey idPrePubKey then
        match hexStringToBytes (doc.get idPrePubKey).toStr with
        | none => (.unexpectedError, wl)
        | some u =>
          if ¬ env.mallocPreKey then (.unexpectedError, wl)
          else finish (wl.setUpgrade (mem.read u 64))
      else finish wl

def idRestoreMetadata (mem : Mem) (tagOf : Nat → τ) (env : RestoreEnv) (wl : Workload τ)
    (data : Option Bytes) : Option (CrustStatus × Workload τ) :=
  match idGetMetadata mem env wl data with
  | none => none
  | some (_, doc) =>
    if doc.size ≤ 0 then some (.unexpectedError, wl)
    else
      match restoreContents mem tagOf env wl doc with
      | none => none
      | some (false, wl) => some (.badSealData, wl)
      | some (true, wl) => some (restoreIdentity mem env wl doc)

/-! ### What a restore does -/

inductive Restored (mem : Mem) (tagOf : Nat → τ) (env : RestoreEnv) (wl : Workload τ) (doc : JSON) :
    CrustStatus × Workload τ → Prop
  | empty (h : doc.size ≤ 0) : Restored mem tagOf env wl doc (.unexpectedError, wl)
  | badSrd {wl'} (h : 0 < doc.size)
      (hc : restoreContents mem tagOf env wl doc = some (false, wl')) :
      Restored mem tagOf env wl doc (.badSealData, wl')
  | noKey {wl'} (h : 0 < doc.size) (hc : restoreContents mem tagOf env wl doc = some (true, wl'))
      (hk : keyPairIn mem doc = none ∨ env.mallocKey = false) :
      Restored mem tagOf env wl doc (.unexpectedError, wl')
  | keySet {wl₁ k r} (h : 0 < doc.size)
      (hc : restoreContents mem tagOf env wl doc = some (true, wl₁))
      (hk : keyPairIn mem doc = some k) (hm : env.mallocKey = true)
      (hr : r.2.isSetKeyPair = true ∧ r.2.idKeyPair = k) : Restored mem tagOf env wl doc r

section
variable {mem : Mem} {tagOf : Nat → τ} {env : RestoreEnv} {wl : Workload τ} {doc : JSON}

theorem restoreIdentity_key (wl : Workload τ) {k : KeyPair} (hk : keyPairIn mem doc = some k)
    (hm : env.mallocKey = true) :
    (restoreIdentity mem env wl doc).2.isSetKeyPair = true ∧
      (restoreIdentity mem env wl doc).2.idKeyPair = k := by
  unfold restoreIdentity
  rw [hk]
  dsimp only
  rw [if_neg (by simp [hm])]
  split
  · split
    · exact ⟨rfl, rfl⟩
    · split
      · exact ⟨rfl, rfl⟩
      · exact ⟨rfl, rfl⟩
  · exact ⟨rfl, rfl⟩

theorem idRestoreMetadata_restored {data : Option Bytes} {r : CrustStatus × Workload τ}
    (h : idRestoreMetadata mem tagOf env wl data = some r) :
    ∃ status doc, idGetMetadata mem env wl data = some (status, doc) ∧
      Restored mem tagOf env wl doc r := by
  unfold idRestoreMetadata at h
  split at h
  · cases h
  rename_i status doc hget
  refine ⟨status, doc, hget, ?_⟩
  split at h
  · rename_i hsize
    cases h
    exact .empty hsize
  rename_i hsize
  have hpos : 0 < doc.size := not_le.mp hsize
  split at h
  · cases h
  · rename_i wl' hc
    cases h
    exact .badSrd hpos hc
  · rename_i wl' hc
    cases h
    cases hk : keyPairIn mem doc with
    | none =>
      unfold restoreIdentity
      rw [hk]
      exact .noKey hpos hc (.inl hk)
    | some k =>
      by_cases hm : env.mallocKey = true
      · exact .keySet hpos hc hk hm (restoreIdentity_key wl' hk hm)
      · unfold restoreIdentity
        rw [hk]
        dsimp only
        rw [if_pos hm]
        exact .noKey hpos hc (.inr (by simpa using hm))

end

end CrustSworker.Metadata

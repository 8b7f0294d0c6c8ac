import CrustSworker.Metadata
import CrustSworker.Seal
import CrustSworker.Sha256
import CrustSworker.Storage
import CrustSworker.Upgrade
import CrustSworker.Validator

/-!
# The life of the key pair

The enclave as one machine: the host calls the ecalls in any order, the main loop
validates and stores metadata in between, and a restart starts again with nothing but
the documents sealed so far. `id_gen_key_pair` refuses to replace a key pair;
`id_restore_metadata` replaces it by whatever key pair its document carries. The main
theorem says which calls of it break the promise that a key pair, once set, stays.
-/

namespace CrustSworker.Enclave

open Report Metadata

variable {τ : Type}

/-- The workload with the upgrade document received so far, and the plain text of
everything `id_store_metadata` has sealed. -/
structure State (τ : Type) where
  up : Upgrade.State τ
  sealed : List Bytes

def State.wl (s : State τ) : Workload τ := s.up.wl

def State.withWl (s : State τ) (wl : Workload τ) : State τ := { s with up := { s.up with wl := wl } }

/-- `restoreMetadata` names the sealed document the host answers with. `storeMetadata` and
the validation steps belong to the main loop. -/
inductive Act (τ : Type) where
  | genKeyPair (env : KeyEnv) (accountId : Option Bytes)
  | restoreMetadata (env : RestoreEnv) (tagOf : Nat → τ) (pick : Option Nat)
  | storeMetadata (env : StoreEnv)
  | restoreFromUpgrade (tagOf : Nat → τ) (call : Upgrade.Call)
  | workReport (env : ReportEnv) (upload : Bytes → CrustStatus) (blockHash : Bytes)
      (blockHeight : UInt64)
  | sealFile (env : Seal.SealEnv) (tag : τ) (treeText path : Bytes)
  | confirmFile (hash : Bytes)
  | deleteFile (hash : Bytes)
  | merge
  | initFailed
  | check (env : Validator.CheckEnv) (i : Nat)
  | settle (changed : List (Nat × Bool))
  | addValidatedProof
  | setUpgradeStatus (status : EncUpgradeStatus)
  | restart (keys : KeyPair) (pre : PubKey)

def unlessUpgrading (wl : Workload τ) (f : Workload τ → Workload τ) : Workload τ :=
  if wl.upgradeStatus = .process then wl else f wl

def State.document (s : State τ) (pick : Option Nat) : Option Bytes :=
  pick.bind fun i => s.sealed[i]?

section
variable (sha256 : Bytes → Hash) (mem : Mem) (verify : Upgrade.Verify)
  (floatText : Bytes → Bytes → Bytes)

def ecallSealFile (env : Seal.SealEnv) (tag : τ) (wl : Workload τ) (treeText path : Bytes) :
    Option (CrustStatus × Workload τ) :=
  if wl.upgradeStatus = .process then some (.upgradeWaitForNextEra, wl)
  else (Seal.storageSealFile sha256 mem env tag wl treeText path).map fun r => (r.status, r.wl)

def step (s : State τ) : Act τ → Option (State τ)
  | .genKeyPair env accountId => some (s.withWl (idGenKeyPair env s.wl accountId).2)
  | .restoreMetadata env tagOf pick =>
    (idRestoreMetadata mem tagOf env s.wl (s.document pick)).map fun r => s.withWl r.2
  | .storeMetadata env =>
    some { s with sealed := s.sealed ++ (idStoreMetadata mem floatText env s.wl).2.toList }
  | .restoreFromUpgrade tagOf call =>
    (Upgrade.ecallRestoreFromUpgrade sha256 mem verify tagOf s.up call).map fun r =>
      { s with up := r.2 }
  | .workReport env upload blockHash blockHeight =>
    (ecallGenAndUploadWorkReport sha256 mem env upload s.wl blockHash blockHeight).map fun r =>
      s.withWl r.2
  | .sealFile env tag treeText path =>
    (ecallSealFile sha256 mem env tag s.wl treeText path).map fun r => s.withWl r.2
  | .confirmFile hash =>
    some (s.withWl (unlessUpgrading s.wl fun wl => Storage.storageConfirmFile wl hash))
  | .deleteFile hash =>
    some (s.withWl (unlessUpgrading s.wl fun wl => Storage.storageDeleteFile wl hash))
  | .merge => some (s.withWl (Validator.mergeNewFiles s.wl))
  | .initFailed => some (s.withWl (Validator.initFailed s.wl))
  | .check env i =>
    (Validator.checkFile sha256 mem env ⟨s.wl, [], false⟩ i).map fun p => s.withWl p.wl
  | .settle changed => some (s.withWl (Validator.settleChanged s.wl changed))
  | .addValidatedProof => some (s.withWl s.wl.reportAddValidatedProof)
  | .setUpgradeStatus status => some (s.withWl { s.wl with upgradeStatus := status })
  | .restart keys pre => some ⟨⟨Workload.init keys pre, 0, []⟩, s.sealed⟩

end

/-! ### Steps that leave the key pair alone -/

def keyOf (wl : Workload τ) : Bool × KeyPair := (wl.isSetKeyPair, wl.idKeyPair)

theorem keyOf_confirm (wl : Workload τ) (hash : Bytes) :
    keyOf (Storage.storageConfirmFile wl hash) = keyOf wl := by
  obtain ⟨checked, new, info, h⟩ := Storage.storageConfirmFile_eq wl hash
  rw [h]
  rfl

theorem keyOf_delete (wl : Workload τ) (hash : Bytes) :
    keyOf (Storage.storageDeleteFile wl hash) = keyOf wl := by
  obtain ⟨checked, new, info, h⟩ := Storage.storageDeleteFile_eq wl hash
  rw [h]
  rfl

theorem keyOf_unlessUpgrading {f : Workload τ → Workload τ} (wl : Workload τ)
    (h : ∀ wl, keyOf (f wl) = keyOf wl) : keyOf (unlessUpgrading wl f) = keyOf wl := by
  unfold unlessUpgrading
  split_ifs
  · rfl
  · exact h wl

theorem keyOf_settleChanged (wl : Workload τ) (changed : List (Nat × Bool)) :
    keyOf (Validator.settleChanged wl changed) = keyOf wl := by
  obtain ⟨info, h⟩ := Validator.settleChanged_eq wl changed
  rw [h]
  rfl

section
variable {sha256 : Bytes → Hash} {mem : Mem} {verify : Upgrade.Verify}
  {floatText : Bytes → Bytes → Bytes} {wl wl' : Workload τ}

theorem keyOf_checkFile {env : Validator.CheckEnv} {p p' : Validator.Pass τ} {i : Nat}
    (h : Validator.checkFile sha256 mem env p i = some p') : keyOf p'.wl = keyOf p.wl := by
  unfold Validator.checkFile at h
  split at h
  · cases h
    rfl
  split at h
  · cases h
  · cases h
    rfl
  · cases h
    rfl

theorem keyOf_sealFile {env : Seal.SealEnv} {tag : τ} {treeText path : Bytes}
    {status : CrustStatus}
    (h : ecallSealFile sha256 mem env tag wl treeText path = some (status, wl')) :
    keyOf wl' = keyOf wl := by
  unfold ecallSealFile at h
  split_ifs at h
  · cases h
    rfl
  · obtain ⟨res, hres, hr⟩ := Option.map_eq_some_iff.mp h
    cases hr
    by_cases hs : res.status = .success
    · obtain ⟨_, _, _, _, _, -, -, -, -, -, hwl⟩ := Seal.storageSealFile_success hres hs
      rw [hwl]
      rfl
    · rw [Seal.storageSealFile_failed hres hs]

theorem keyOf_genWorkReport {env : ReportEnv} {blockHash : Bytes} {blockHeight : UInt64}
    {up : Bool} {res : GenResult τ}
    (h : genWorkReport sha256 mem env wl blockHash blockHeight up = some res) :
    keyOf res.2.1 = keyOf wl := by
  by_cases hp : heightExpired wl.reportHeight blockHeight = true
  · unfold genWorkReport at h
    rw [if_pos hp] at h
    cases h
    rfl
  · obtain hs | hs := (genWorkReport_outcome (by simpa using hp) h).settled
    · rw [hs]
      rfl
    · rw [hs]
      rfl

theorem keyOf_genAndUpload {env : ReportEnv} {upload : Bytes → CrustStatus} {blockHash : Bytes}
    {blockHeight : UInt64} {up : Bool} {status : CrustStatus}
    (h : genAndUploadWorkReport sha256 mem env upload wl blockHash blockHeight up =
      some (status, wl')) : keyOf wl' = keyOf wl := by
  unfold genAndUploadWorkReport at h
  split at h
  · cases h
  · rename_i wl₁ r sig hg
    have hk := keyOf_genWorkReport hg
    dsimp only at h hk
    cases h
    split_ifs
    · exact hk
    · exact hk
  · rename_i st wl₁ o _ hg
    cases h
    exact keyOf_genWorkReport hg

theorem keyOf_restoreWorkload (env : Upgrade.UpgradeEnv) (tagOf : Nat → τ) (wl : Workload τ)
    (doc : JSON) : keyOf (Upgrade.restoreWorkload env tagOf wl doc).2 = keyOf wl := by
  unfold Upgrade.restoreWorkload Workload.restoreSrd
  split
  · rename_i wl₁ hr
    split at hr
    · cases hr
    · cases hr
      rw [Upgrade.restoreFile_eq]
      rfl
  · rename_i wl₁ _ hr
    split at hr
    · cases hr
      rfl
    · cases hr
      rfl

theorem keyOf_restoreDocument {env : Upgrade.UpgradeEnv} {tagOf : Nat → τ} {doc : JSON}
    {reply : Upgrade.Reply}
    (h : Upgrade.restoreDocument sha256 mem verify tagOf env wl doc = some (reply, wl')) :
    keyOf wl' = keyOf wl := by
  have hcheck : ∀ v wl₁, Upgrade.checkDocument sha256 mem verify env tagOf wl doc = some (v, wl₁) →
      keyOf wl₁ = keyOf wl := by
    intro v wl₁ hc
    obtain ⟨-, rfl⟩ | ⟨-, rfl⟩ := Upgrade.checkDocument_cases hc
    · rfl
    · exact keyOf_restoreWorkload env tagOf wl doc
  unfold Upgrade.restoreDocument at h
  split at h
  · cases h
  · rename_i status wl₁ hc
    cases h
    exact hcheck _ _ hc
  · rename_i key wl₁ hc
    split at h
    · cases h
    rename_i status wl₂ hn
    cases h
    refine Eq.trans ?_ (hcheck _ _ hc)
    unfold Upgrade.enterNetwork at hn
    dsimp only at hn
    split_ifs at hn
    · cases hn
      rfl
    · exact (keyOf_genAndUpload hn).trans rfl

theorem keyOf_restoreFromUpgrade {tagOf : Nat → τ} {u u' : Upgrade.State τ} {c : Upgrade.Call}
    {reply : Upgrade.Reply}
    (h : Upgrade.ecallRestoreFromUpgrade sha256 mem verify tagOf u c = some (reply, u')) :
    keyOf u'.wl = keyOf u.wl := by
  unfold Upgrade.ecallRestoreFromUpgrade Upgrade.idRestoreFromUpgrade at h
  dsimp only at h
  split at h
  · cases h
    rfl
  split at h
  · cases h
    rfl
  split at h
  · cases h
    rfl
  split at h
  · cases h
  split at h
  · cases h
  rename_i doc _ reply₁ wl₁ hdoc
  cases h
  exact keyOf_restoreDocument hdoc

theorem keyOf_restoreContents {tagOf : Nat → τ} {env : RestoreEnv} {doc : JSON} {b : Bool}
    (h : restoreContents mem tagOf env wl doc = some (b, wl')) : keyOf wl' = keyOf wl := by
  have hspec : ∀ wl₁, restoreSpec mem env wl = some wl₁ → keyOf wl₁ = keyOf wl := by
    intro wl₁ hs
    unfold restoreSpec at hs
    split at hs
    · split at hs
      · cases hs
      · cases hs
        rfl
    · cases hs
      rfl
  have hsrd : ∀ wl₁ : Workload τ, keyOf (restoreSrdIn env wl₁ doc).2 = keyOf wl₁ := by
    intro wl₁
    unfold restoreSrdIn Workload.restoreSrd
    split_ifs
    · cases Workload.restorePaths env.mallocHash (doc.get idWorkload).objectRange [] with
      | none => rfl
      | some m => rfl
    · rfl
  unfold restoreContents at h
  split at h
  · cases h
  rename_i wl₁ hs
  split at h
  · rename_i wl₂ hr
    cases h
    rw [← hspec wl₁ hs, ← hsrd wl₁, hr]
  · rename_i wl₂ hr
    cases h
    rw [← hspec wl₁ hs, ← hsrd wl₁, hr]
    unfold restoreFilesIn
    split
    · rfl
    · rfl

end

/-! ### The promise -/

structure OtherKey (mem : Mem) (s : State τ) (env : RestoreEnv) (pick : Option Nat) (doc : JSON) :
    Prop where
  isSet : s.wl.isSetKeyPair = true
  get : ∃ status, idGetMetadata mem env s.wl (s.document pick) = some (status, doc)
  size : 0 < doc.size
  other : ∃ k, keyPairIn mem doc = some k ∧ k ≠ s.wl.idKeyPair

/-- The database answers with statistics that the loader faults on. -/
def SpecFaults (mem : Mem) (env : RestoreEnv) : Prop :=
  ∃ text e, env.wlSpecInfo = (.success, some text) ∧ JsonParse.load mem text = .error e

def SpecHeld (mem : Mem) (env : RestoreEnv) (wl : Workload τ) : Prop :=
  ∀ text spec, env.wlSpecInfo = (.success, some text) → JsonParse.load mem text = .ok spec →
    spec = wl.wlSpecInfo

def FilesHeld (tagOf : Nat → τ) (wl : Workload τ) (doc : JSON) : Prop :=
  ∀ items, doc.get idFile = .array items →
    items.zipIdx.map (fun p => (⟨tagOf p.2, p.1⟩ : FileItem τ)) = wl.checkedFiles

/-- The G hashes of the document are the map of the workload, which its statistics count. -/
structure HashsHeld (wl : Workload τ) (doc : JSON) : Prop where
  srd : Workload.statedHashs (doc.get idWorkload).objectRange [] = wl.srdPath2hashs
  srdInfo : Workload.assignSrdInfo wl.srdInfoJson wl.srdPath2hashs = wl.srdInfoJson

def HasHashs (doc : JSON) : Prop :=
  doc.hasKey idWorkload = true ∧ isObject (doc.get idWorkload) = true

instance (doc : JSON) : Decidable (HasHashs doc) :=
  inferInstanceAs (Decidable (_ ∧ _))

/-- A document that leaves nothing behind before its key pair is stored: a G hash is not decoded,
and there were none before; or there is no buffer for the key pair, and the rest was there. -/
def LeavesNothing (mem : Mem) (tagOf : Nat → τ) (env : RestoreEnv) (wl : Workload τ) (doc : JSON) :
    Prop :=
  (HasHashs doc ∧ ¬ Workload.Decodable env.mallocHash (doc.get idWorkload).objectRange ∧
    SpecHeld mem env wl ∧ wl.srdPath2hashs = []) ∨
  (env.mallocKey = false ∧ SpecHeld mem env wl ∧ FilesHeld tagOf wl doc ∧
    (HasHashs doc → Workload.Decodable env.mallocHash (doc.get idWorkload).objectRange ∧
      HashsHeld wl doc))

/-- A step that does not read another key pair, or reads one from a document that leaves
nothing behind. -/
def Harmless (mem : Mem) (s : State τ) : Act τ → Prop
  | .restoreMetadata env tagOf pick =>
    ∀ doc, OtherKey mem s env pick doc →
      SpecFaults mem env ∨ LeavesNothing mem tagOf env s.wl doc
  | _ => True

section
variable {mem : Mem} {tagOf : Nat → τ} {env : RestoreEnv} {wl : Workload τ} {doc : JSON}

theorem restoreSpec_faults (h : SpecFaults mem env) : restoreSpec mem env wl = none := by
  obtain ⟨text, e, henv, hload⟩ := h
  rw [restoreSpec, henv]
  dsimp only
  rw [hload]

theorem restoreSpec_read (wl : Workload τ) (h : ¬ SpecFaults mem env) :
    ∃ spec, restoreSpec mem env wl = some { wl with wlSpecInfo := spec } ∧
      (spec = wl.wlSpecInfo ↔ SpecHeld mem env wl) := by
  unfold restoreSpec
  split
  · rename_i text henv
    cases hload : JsonParse.load mem text with
    | error e => exact absurd ⟨text, e, henv, hload⟩ h
    | ok spec =>
      refine ⟨spec, rfl, fun hs text' spec' henv' hload' => ?_, fun hs => hs text spec henv hload⟩
      obtain rfl : text = text' := by
        rw [henv] at henv'
        exact Option.some.inj (Prod.mk.inj henv').2
      exact (Except.ok.inj (hload.symm.trans hload')).symm.trans hs
  · rename_i hno
    exact ⟨wl.wlSpecInfo, rfl, fun _ text spec henv => absurd henv (hno text), fun _ => rfl⟩

theorem restoreFilesIn_files (tagOf : Nat → τ) (doc : JSON) (wl : Workload τ) :
    restoreFilesIn tagOf wl doc =
        { wl with checkedFiles := (restoreFilesIn tagOf wl doc).checkedFiles } ∧
      ((restoreFilesIn tagOf wl doc).checkedFiles = wl.checkedFiles ↔ FilesHeld tagOf wl doc) := by
  unfold restoreFilesIn
  split
  · rename_i items hitems
    refine ⟨rfl, fun h items' hitems' => ?_, fun h => h items hitems⟩
    cases hitems.symm.trans hitems'
    exact h
  · rename_i hno
    exact ⟨rfl, fun _ items hitems => absurd hitems (hno items), fun _ => rfl⟩

theorem restoreContents_isSome (tagOf : Nat → τ) (wl : Workload τ) (doc : JSON)
    (h : ¬ SpecFaults mem env) :
    ∃ b wl', restoreContents mem tagOf env wl doc = some (b, wl') := by
  obtain ⟨spec, hspec, -⟩ := restoreSpec_read wl h
  unfold restoreContents
  rw [hspec]
  dsimp only
  split
  · exact ⟨_, _, rfl⟩
  · exact ⟨_, _, rfl⟩

theorem restoreContents_same_iff (h : ¬ SpecFaults mem env) :
    (∃ b, restoreContents mem tagOf env wl doc = some (b, wl) ∧
      (b = false ∨ env.mallocKey = false)) ↔ LeavesNothing mem tagOf env wl doc := by
  obtain ⟨spec, hspec, hsame⟩ := restoreSpec_read wl h
  have hfields : ∀ m info fs, ({ wl with
      wlSpecInfo := spec, srdPath2hashs := m, srdInfoJson := info, checkedFiles := fs } = wl ↔
      SpecHeld mem env wl ∧ m = wl.srdPath2hashs ∧ info = wl.srdInfoJson ∧
        fs = wl.checkedFiles) := by
    intro m info fs
    rw [← hsame]
    cases wl
    simp only [Workload.mk.injEq, true_and]
    tauto
  have hstops : ∀ (b : Bool) (wl' : Workload τ), (∃ b', some (b, wl') = some (b', wl) ∧
      (b' = false ∨ env.mallocKey = false)) ↔ wl' = wl ∧ (b = false ∨ env.mallocKey = false) := by
    intro b wl'
    constructor
    · rintro ⟨b', heq, hb⟩
      cases heq
      exact ⟨rfl, hb⟩
    · rintro ⟨rfl, hb⟩
      exact ⟨b, rfl, hb⟩
  unfold restoreContents restoreSrdIn LeavesNothing
  rw [hspec]
  dsimp only
  by_cases hg : doc.hasKey idWorkload = true ∧ isObject (doc.get idWorkload) = true
  · rw [if_pos hg, Workload.restoreSrd]
    by_cases hd : Workload.Decodable env.mallocHash (doc.get idWorkload).objectRange
    · rw [Workload.restorePaths_eq_some hd]
      obtain ⟨hfiles, hheld⟩ := restoreFilesIn_files tagOf doc
        { wl with
          wlSpecInfo := spec
          srdPath2hashs := Workload.statedHashs (doc.get idWorkload).objectRange []
          srdInfoJson := Workload.assignSrdInfo wl.srdInfoJson
            (Workload.statedHashs (doc.get idWorkload).objectRange []) }
      dsimp only at hfiles hheld ⊢
      rw [hstops, hfiles, hfields, hheld]
      constructor
      · rintro ⟨⟨hs, hsrd, hinfo, hf⟩, hb | hkey⟩
        · cases hb
        · rw [hsrd] at hinfo
          exact .inr ⟨hkey, hs, hf, fun _ => ⟨hd, hsrd, hinfo⟩⟩
      · rintro (⟨-, hnot, -⟩ | ⟨hkey, hs, hf, hheld⟩)
        · exact absurd hd hnot
        · obtain ⟨-, hsrd, hinfo⟩ := hheld hg
          rw [hsrd]
          exact ⟨⟨hs, rfl, hinfo, hf⟩, .inr hkey⟩
    · rw [Workload.restorePaths_eq_none hd]
      dsimp only
      rw [hstops, hfields]
      constructor
      · rintro ⟨⟨hs, hsrd, -⟩, -⟩
        exact .inl ⟨hg, hd, hs, hsrd.symm⟩
      · rintro (⟨-, -, hs, hsrd⟩ | ⟨-, -, -, hheld⟩)
        · exact ⟨⟨hs, hsrd.symm, rfl, rfl⟩, .inl rfl⟩
        · exact absurd (hheld hg).1 hd
  · rw [if_neg hg]
    dsimp only
    obtain ⟨hfiles, hheld⟩ := restoreFilesIn_files tagOf doc
      { wl with wlSpecInfo := spec }
    dsimp only at hfiles hheld
    rw [hstops, hfiles, hfields, hheld]
    constructor
    · rintro ⟨⟨hs, -, -, hf⟩, hb | hkey⟩
      · cases hb
      · exact .inr ⟨hkey, hs, hf, fun h => absurd h hg⟩
    · rintro (⟨h, -⟩ | ⟨hkey, hs, hf, -⟩)
      · exact absurd h hg
      · exact ⟨⟨hs, rfl, rfl, hf⟩, .inr hkey⟩

theorem contents_of_leavesNothing {b : Bool} {wl' : Workload τ}
    (h : SpecFaults mem env ∨ LeavesNothing mem tagOf env wl doc)
    (hc : restoreContents mem tagOf env wl doc = some (b, wl')) :
    wl' = wl ∧ (b = false ∨ env.mallocKey = false) := by
  by_cases hf : SpecFaults mem env
  · unfold restoreContents at hc
    rw [restoreSpec_faults hf] at hc
    cases hc
  · obtain ⟨b', hc', hb⟩ := (restoreContents_same_iff hf).mpr (h.resolve_left hf)
    cases hc.symm.trans hc'
    exact ⟨rfl, hb⟩

end

def Act.isRestart : Act τ → Bool
  | .restart _ _ => true
  | _ => false

section
variable (sha256 : Bytes → Hash) (mem : Mem) (verify : Upgrade.Verify)
  (floatText : Bytes → Bytes → Bytes)

/-- Between two restarts a key pair that is set stays as it is. -/
def KeyStays (s : State τ) (acts : List (Act τ)) : Prop :=
  ∀ before between after s₁ s₂, acts = before ++ between ++ after →
    Runs.run (step sha256 mem verify floatText) s before = some s₁ →
    Runs.run (step sha256 mem verify floatText) s₁ between = some s₂ →
    (∀ a ∈ between, a.isRestart = false) → s₁.wl.isSetKeyPair = true →
      keyOf s₂.wl = keyOf s₁.wl

/-- A document with another key pair is refused, and nothing changes. -/
def OtherRefused (s : State τ) (acts : List (Act τ)) : Prop :=
  ∀ before env tagOf pick after s₁ doc status wl,
    acts = before ++ .restoreMetadata env tagOf pick :: after →
    Runs.run (step sha256 mem verify floatText) s before = some s₁ →
    OtherKey mem s₁ env pick doc →
    idRestoreMetadata mem tagOf env s₁.wl (s₁.document pick) = some (status, wl) →
      status ≠ .success ∧ wl = s₁.wl

end

section
variable {sha256 : Bytes → Hash} {mem : Mem} {verify : Upgrade.Verify}
  {floatText : Bytes → Bytes → Bytes} {s s' : State τ}

theorem restore_key {env : RestoreEnv} {tagOf : Nat → τ} {pick : Option Nat}
    {r : CrustStatus × Workload τ} (hset : s.wl.isSetKeyPair = true)
    (h : idRestoreMetadata mem tagOf env s.wl (s.document pick) = some r)
    (ha : Harmless mem s (.restoreMetadata env tagOf pick)) : keyOf r.2 = keyOf s.wl := by
  obtain ⟨status, doc, hget, hr⟩ := idRestoreMetadata_restored h
  cases hr with
  | empty _ => rfl
  | badSrd _ hc => exact keyOf_restoreContents hc
  | noKey _ hc _ => exact keyOf_restoreContents hc
  | @keySet wl₁ k _ hsize hc hk hm hkey =>
    have hsame : k = s.wl.idKeyPair := by
      by_contra hne
      obtain ⟨-, hb | hb⟩ :=
        contents_of_leavesNothing (ha doc ⟨hset, ⟨status, hget⟩, hsize, k, hk, hne⟩) hc
      · cases hb
      · rw [hm] at hb
        cases hb
    unfold keyOf
    rw [hkey.1, hkey.2, hset, hsame]

theorem step_key {a : Act τ} (h : step sha256 mem verify floatText s a = some s')
    (hr : a.isRestart = false) (hset : s.wl.isSetKeyPair = true) (ha : Harmless mem s a) :
    keyOf s'.wl = keyOf s.wl := by
  cases a with
  | genKeyPair env accountId =>
    cases h
    change keyOf (idGenKeyPair env s.wl accountId).2 = keyOf s.wl
    unfold idGenKeyPair
    rw [if_pos hset]
  | restoreMetadata env tagOf pick =>
    obtain ⟨r, hres, rfl⟩ := Option.map_eq_some_iff.mp h
    exact restore_key hset hres ha
  | storeMetadata env =>
    cases h
    rfl
  | restoreFromUpgrade tagOf call =>
    obtain ⟨r, hres, rfl⟩ := Option.map_eq_some_iff.mp h
    exact keyOf_restoreFromUpgrade hres
  | workReport env upload blockHash blockHeight =>
    obtain ⟨r, hres, rfl⟩ := Option.map_eq_some_iff.mp h
    unfold ecallGenAndUploadWorkReport at hres
    split_ifs at hres
    · cases hres
      rfl
    · exact keyOf_genAndUpload hres
  | sealFile env tag treeText path =>
    obtain ⟨r, hres, rfl⟩ := Option.map_eq_some_iff.mp h
    exact keyOf_sealFile hres
  | confirmFile hash =>
    cases h
    exact keyOf_unlessUpgrading s.wl fun wl => keyOf_confirm wl hash
  | deleteFile hash =>
    cases h
    exact keyOf_unlessUpgrading s.wl fun wl => keyOf_delete wl hash
  | merge =>
    cases h
    rfl
  | initFailed =>
    cases h
    change keyOf (Validator.initFailed s.wl) = keyOf s.wl
    unfold Validator.initFailed
    split_ifs
    · rfl
    · rfl
  | check env i =>
    obtain ⟨p, hres, rfl⟩ := Option.map_eq_some_iff.mp h
    exact keyOf_checkFile hres
  | settle changed =>
    cases h
    exact keyOf_settleChanged s.wl changed
  | addValidatedProof =>
    cases h
    rfl
  | setUpgradeStatus status =>
    cases h
    rfl
  | restart keys pre => cases hr

theorem otherRefused_iff {env : RestoreEnv} {tagOf : Nat → τ} {pick : Option Nat} :
    Harmless mem s (.restoreMetadata env tagOf pick) ↔
      ∀ doc status wl, OtherKey mem s env pick doc →
        idRestoreMetadata mem tagOf env s.wl (s.document pick) = some (status, wl) →
          status ≠ .success ∧ wl = s.wl := by
  constructor
  · intro ha doc status wl ho hres
    obtain ⟨st, doc', hget, hr⟩ := idRestoreMetadata_restored hres
    obtain ⟨st', hget'⟩ := ho.get
    cases hget.symm.trans hget'
    cases hr with
    | empty hsize => exact absurd ho.size (not_lt.mpr hsize)
    | badSrd _ hc => exact ⟨by decide, (contents_of_leavesNothing (ha doc ho) hc).1⟩
    | noKey _ hc _ => exact ⟨by decide, (contents_of_leavesNothing (ha doc ho) hc).1⟩
    | keySet _ hc _ hm _ =>
      obtain ⟨-, hb | hb⟩ := contents_of_leavesNothing (ha doc ho) hc
      · cases hb
      · rw [hm] at hb
        cases hb
  · intro h doc ho
    by_cases hf : SpecFaults mem env
    · exact .inl hf
    refine .inr ((restoreContents_same_iff hf).mp ?_)
    obtain ⟨b, wl, hc⟩ := restoreContents_isSome tagOf s.wl doc hf
    obtain ⟨st, hget⟩ := ho.get
    obtain ⟨k, hk, hne⟩ := ho.other
    have hres : idRestoreMetadata mem tagOf env s.wl (s.document pick) =
        some (if b then restoreIdentity mem env wl doc else (.badSealData, wl)) := by
      unfold idRestoreMetadata
      rw [hget]
      dsimp only
      rw [if_neg (not_le.mpr ho.size), hc]
      cases b <;> rfl
    cases b with
    | false =>
      have hwl : wl = s.wl := (h doc _ _ ho hres).2
      exact ⟨false, hwl ▸ hc, .inl rfl⟩
    | true =>
      have hsame : (restoreIdentity mem env wl doc).2 = s.wl := (h doc _ _ ho hres).2
      by_cases hm : env.mallocKey = true
      · refine absurd ?_ hne
        rw [← (restoreIdentity_key wl hk hm).2]
        exact congrArg Workload.idKeyPair hsame
      · have hid : (restoreIdentity mem env wl doc).2 = wl := by
          unfold restoreIdentity
          rw [hk]
          dsimp only
          rw [if_pos hm]
        have hwl : wl = s.wl := hid.symm.trans hsame
        exact ⟨true, hwl ▸ hc, .inr (by simpa using hm)⟩

/-- Along a run the key pair is immutable, and every document with another key pair is
refused without a trace, exactly when all steps are harmless. -/
theorem keyPair_immutable_iff (s : State τ) (acts : List (Act τ)) :
    KeyStays sha256 mem verify floatText s acts ∧ OtherRefused sha256 mem verify floatText s acts ↔
      Runs.Allowed (step sha256 mem verify floatText) (Harmless mem) s acts := by
  constructor
  · rintro ⟨-, href⟩
    rw [Runs.allowed_iff]
    intro before a after s₁ hacts hrun
    cases a with
    | restoreMetadata env tagOf pick =>
      exact otherRefused_iff.mpr fun doc status wl =>
        href before env tagOf pick after s₁ doc status wl hacts hrun
    | _ => trivial
  · intro hok
    rw [Runs.allowed_iff] at hok
    refine ⟨?_, ?_⟩
    · intro before between after s₁ s₂ hacts hbefore hbetween hrestart hset
      have hallowed : Runs.Allowed (step sha256 mem verify floatText)
          (fun s a => Harmless mem s a ∧ a.isRestart = false) s₁ between := by
        rw [Runs.allowed_iff]
        intro pre a post t hsplit hpre
        refine ⟨hok (before ++ pre) a (post ++ after) t ?_ ?_, hrestart a ?_⟩
        · simp [hacts, hsplit]
        · rw [Runs.run_append, hbefore]
          exact hpre
        · simp [hsplit]
      have hstep : ∀ (t : State τ) a t', step sha256 mem verify floatText t a = some t' →
          Harmless mem t a ∧ a.isRestart = false → keyOf t.wl = keyOf s₁.wl →
          keyOf t'.wl = keyOf s₁.wl := by
        intro t a t' ht ha hi
        have htset : t.wl.isSetKeyPair = true := (congrArg Prod.fst hi).trans hset
        exact (step_key ht ha.2 htset ha.1).trans hi
      exact Runs.run_invariant_of hstep hbetween hallowed rfl
    · intro before env tagOf pick after s₁ doc status wl hacts hrun
      exact otherRefused_iff.mp (hok before _ after s₁ hacts hrun) doc status wl

end

/-! ### A restart, a new key pair, and the old document -/

def pubKeyOfHex (x y : Bytes) (h : (hexPairs (x ++ y)).length = 64) : PubKey := ⟨hexPairs (x ++ y), h⟩

def firstKeys : KeyPair where
  pubKey := pubKeyOfHex (str "96c298d84539a1f4a033eb2d817d0377" ++ str "f240a463e5e6bcf847422ce1f2d1176b")
    (str "f551bf376840b6cbce5e316b5733ce2b" ++ str "169e0f7c4aebe78e9b7f1afee242e34f") (by decide +kernel)
  priKey := ⟨1 :: List.replicate 31 0, rfl⟩

def secondKeys : KeyPair where
  pubKey := pubKeyOfHex (str "78996647fc480ba6351bf277e26989c0" ++ str "c31ab5040338528a7e4f038d187bf27c")
    (str "d17378229db7049e2982e93ce6ad7dba" ++ str "db30749fc69a3d2940d08edb10557707") (by decide +kernel)
  priKey := ⟨2 :: List.replicate 31 0, rfl⟩

def zeroKeys : KeyPair := ⟨⟨List.replicate 64 0, length_zeros64⟩, ⟨List.replicate 32 0, length_zeros32⟩⟩

def genKeys (keys : KeyPair) : Act Unit := .genKeyPair ⟨.success, .success, keys⟩ (some (str "5CSp"))

def plainRestore : RestoreEnv := ⟨true, fun _ _ => true, true, true, .host 1, none⟩

def renewed : List (Act Unit) :=
  [genKeys firstKeys, .storeMetadata ⟨true, .success⟩, .restart zeroKeys ⟨List.replicate 64 0, length_zeros64⟩,
    genKeys secondKeys]

def restoreOld : Act Unit := .restoreMetadata plainRestore (fun _ => ()) (some 0)

def plainStep : State Unit → Act Unit → Option (State Unit) :=
  step Sha256.sha256 ⟨fun _ _ => 0⟩ (fun _ _ _ => false) fun _ _ => []

def firstStart : State Unit := ⟨⟨Workload.init zeroKeys ⟨List.replicate 64 0, length_zeros64⟩, 0, []⟩, []⟩

/-- The old document is restored with success, over the key pair that is set. -/
theorem old_document_replaces_key :
    ∃ s₁ s₂, Runs.run plainStep firstStart renewed = some s₁ ∧
      keyOf s₁.wl = (true, secondKeys) ∧
      (idRestoreMetadata ⟨fun _ _ => 0⟩ (fun _ => ()) plainRestore s₁.wl
        (s₁.document (some 0))).map Prod.fst = some .success ∧
      plainStep s₁ restoreOld = some s₂ ∧ keyOf s₂.wl = (true, firstKeys) ∧
      ¬ KeyStays Sha256.sha256 ⟨fun _ _ => 0⟩ (fun _ _ _ => false) (fun _ _ => []) firstStart
        (renewed ++ [restoreOld]) := by
  have hrun : ((Runs.run plainStep firstStart renewed).bind fun s₁ =>
      (plainStep s₁ restoreOld).map fun s₂ => (keyOf s₁.wl,
        (idRestoreMetadata ⟨fun _ _ => 0⟩ (fun _ => ()) plainRestore s₁.wl
          (s₁.document (some 0))).map Prod.fst, keyOf s₂.wl)) =
      some ((true, secondKeys), some .success, (true, firstKeys)) := by decide +kernel
  obtain ⟨s₁, hs₁, h⟩ := Option.bind_eq_some_iff.mp hrun
  obtain ⟨s₂, hs₂, h⟩ := Option.map_eq_some_iff.mp h
  simp only [Prod.mk.injEq] at h
  obtain ⟨hkey₁, hstatus, hkey₂⟩ := h
  refine ⟨s₁, s₂, hs₁, hkey₁, hstatus, hs₂, hkey₂, fun hstays => ?_⟩
  have hsame := hstays renewed [restoreOld] [] s₁ s₂ (List.append_nil _).symm hs₁
    (by simp only [Runs.run]; unfold plainStep at hs₂; rw [hs₂]) (by decide)
    (congrArg Prod.fst hkey₁)
  rw [hkey₁, hkey₂] at hsame
  exact absurd (congrArg (fun k : Bool × KeyPair => k.2.priKey) hsame) (by decide)

end CrustSworker.Enclave

import CrustSworker.Json
import CrustSworker.Parameter

/-!
# The workload singleton

`Workload` with the operations the other components call. A file entry is the JSON
value the source keeps in `checked_files` and `new_files`; it carries a tag of an
arbitrary type that stands for its identity. No operation can read the tag, since
all of them are generic in its type: it only lets a specification say which entry
is which when two entries hold the same JSON.
-/

namespace CrustSworker

open OrderedMap

variable {τ : Type}

structure FileItem (τ : Type) where
  tag : τ
  json : JSON

namespace FileItem

def status (f : FileItem τ) : JSON := f.json.get fileStatus

def statusChar (f : FileItem τ) (i : Nat) : UInt8 := f.status.getChar i

def setStatusChar (f : FileItem τ) (i : Nat) (c : UInt8) : FileItem τ :=
  { f with json := f.json.put fileStatus (f.status.setChar i c) }

def current (f : FileItem τ) : UInt8 := f.statusChar currentStatus
def waiting (f : FileItem τ) : UInt8 := f.statusChar waitingStatus
def origin (f : FileItem τ) : UInt8 := f.statusChar originStatus

def hashText (f : FileItem τ) : Bytes := (f.json.get fileHash).toStr

def oldSize (f : FileItem τ) : Int := (f.json.get fileOldSize).toInt

@[simp] theorem setStatusChar_tag (f : FileItem τ) (i : Nat) (c : UInt8) :
    (f.setStatusChar i c).tag = f.tag := rfl

theorem setStatusChar_get (f : FileItem τ) (i : Nat) (c : UInt8) {k : Bytes}
    (hk : k ≠ fileStatus) : (f.setStatusChar i c).json.get k = f.json.get k :=
  JSON.get_put_ne _ hk _

@[simp] theorem setStatusChar_oldSize (f : FileItem τ) (i : Nat) (c : UInt8) :
    (f.setStatusChar i c).oldSize = f.oldSize := by
  unfold oldSize
  rw [setStatusChar_get f i c (by decide)]

@[simp] theorem setStatusChar_status (f : FileItem τ) (i : Nat) (c : UInt8) :
    (f.setStatusChar i c).status = f.status.setChar i c :=
  JSON.get_put_self _ _ _

theorem status_of_char {f : FileItem τ} {i : Nat} (h : f.statusChar i ≠ 0) :
    ∃ s, f.status = .string s ∧ i < s.length := by
  unfold statusChar JSON.getChar at h
  split at h
  · rename_i s hs
    refine ⟨s, hs, ?_⟩
    by_contra hi
    exact h (by simp [List.getD_eq_getElem?_getD, List.getElem?_eq_none (not_lt.mp hi)])
  · exact absurd rfl h

theorem statusChar_set_self {f : FileItem τ} {s : Bytes} {i : Nat} (hs : f.status = .string s)
    (hi : i < s.length) (c : UInt8) : (f.setStatusChar i c).statusChar i = c := by
  rw [statusChar, setStatusChar_status, hs, JSON.getChar_setChar_self hi]

theorem current_set_current {f : FileItem τ} (h : f.current ≠ 0) (c : UInt8) :
    (f.setStatusChar currentStatus c).current = c := by
  obtain ⟨s, hs, hi⟩ := status_of_char h
  exact statusChar_set_self hs hi c

theorem statusChar_set_ne {f : FileItem τ} {s : Bytes} {i k : Nat} (hs : f.status = .string s)
    (hi : i < s.length) (hk : k ≠ i) (c : UInt8) :
    (f.setStatusChar i c).statusChar k = f.statusChar k := by
  rw [statusChar, setStatusChar_status, hs, JSON.getChar_setChar_ne hi hk, statusChar, hs]

def HasStatus (f : FileItem τ) : Prop := ∃ s, f.status = .string s ∧ s.length = 3

theorem HasStatus.set {f : FileItem τ} (h : f.HasStatus) {i : Nat} (hi : i < 3) (c : UInt8) :
    (f.setStatusChar i c).HasStatus := by
  obtain ⟨s, hs, hl⟩ := h
  refine ⟨s.set i c, ?_, by simpa using hl⟩
  rw [setStatusChar_status, hs, JSON.setChar, if_neg (by omega)]

theorem HasStatus.char_self {f : FileItem τ} (h : f.HasStatus) {i : Nat} (hi : i < 3) (c : UInt8) :
    (f.setStatusChar i c).statusChar i = c := by
  obtain ⟨s, hs, hl⟩ := h
  exact statusChar_set_self hs (by omega) c

theorem HasStatus.char_ne {f : FileItem τ} (h : f.HasStatus) {i k : Nat} (hi : i < 3)
    (hk : k ≠ i) (c : UInt8) : (f.setStatusChar i c).statusChar k = f.statusChar k := by
  obtain ⟨s, hs, hl⟩ := h
  exact statusChar_set_ne hs (by omega) hk c

@[simp] theorem setStatusChar_hash (f : FileItem τ) (i : Nat) (c : UInt8) :
    (f.setStatusChar i c).json.get fileHash = f.json.get fileHash :=
  setStatusChar_get f i c (by decide)

end FileItem

structure KeyPair where
  pubKey : PubKey
  priKey : PriKey
  deriving DecidableEq

structure Workload (τ : Type) where
  srdPath2hashs : List (Bytes × List Bytes)
  checkedFiles : List (FileItem τ)
  newFiles : List (FileItem τ)
  reportedFilesIdx : List Nat
  prePubKey : PubKey
  accountId : Bytes
  idKeyPair : KeyPair
  isSetKeyPair : Bool
  reportHeight : UInt64
  restartFlag : Bool
  validatedProof : Nat
  reportFiles : Bool
  srdInfoJson : JSON
  upgrade : Bool
  upgradeStatus : EncUpgradeStatus
  wlSpecInfo : JSON

def fileStatusName (c : UInt8) : Bytes :=
  if c = statusUnconfirmed then str "unconfirmed"
  else if c = statusValid then str "valid"
  else if c = statusLost then str "lost"
  else if c = statusDeleted then str "deleted"
  else []

def toInt32 (n : Int) : Int := Int.bmod n (2 ^ 32)

def bumpSpec (spec : JSON) (name : Bytes) (dn ds : Int) : JSON :=
  let spec := spec.put name ((spec.get name).put (str "num")
    (.integral (((spec.get name).get (str "num")).toInt + dn)))
  spec.put name ((spec.get name).put (str "size")
    (.integral (((spec.get name).get (str "size")).toInt + ds)))

def specSign (change : Int) : Int := if change > 0 then 1 else -1

namespace Workload

def init (keys : KeyPair) (pre : PubKey) : Workload τ where
  srdPath2hashs := []
  checkedFiles := []
  newFiles := []
  reportedFilesIdx := []
  prePubKey := pre
  accountId := []
  idKeyPair := keys
  isSetKeyPair := false
  reportHeight := 0
  restartFlag := false
  validatedProof := 0
  reportFiles := true
  srdInfoJson := .null
  upgrade := false
  upgradeStatus := .none
  wlSpecInfo :=
    [statusUnconfirmed, statusValid, statusLost].foldl
      (fun spec c => (spec.put (fileStatusName c)
        ((JSON.null.put (str "num") (.integral 0)).put (str "size") (.integral 0)))) .null

def addNewFile (wl : Workload τ) (file : FileItem τ) : Workload τ :=
  { wl with newFiles := wl.newFiles ++ [file] }

def setWlSpec (wl : Workload τ) (status : UInt8) (change : Int) : Workload τ :=
  let change := toInt32 change
  { wl with wlSpecInfo := bumpSpec wl.wlSpecInfo (fileStatusName status) (specSign change) change }

/-- The overload of `set_wl_spec` that moves a file from one status to another. -/
def moveWlSpec (wl : Workload τ) (status related : UInt8) (change : Int) : Workload τ :=
  if status = related then wl
  else
    let change := toInt32 change
    let spec := bumpSpec wl.wlSpecInfo (fileStatusName status) (specSign change) change
    { wl with
      wlSpecInfo := bumpSpec spec (fileStatusName related) (-specSign change) (-change) }

theorem moveWlSpec_eq (wl : Workload τ) (status related : UInt8) (change : Int) :
    ∃ info, wl.moveWlSpec status related change = { wl with wlSpecInfo := info } := by
  unfold moveWlSpec
  split_ifs
  · exact ⟨wl.wlSpecInfo, rfl⟩
  · exact ⟨_, rfl⟩

def setKeyPair (wl : Workload τ) (keys : KeyPair) : Workload τ :=
  { wl with idKeyPair := keys, isSetKeyPair := true }

def setUpgrade (wl : Workload τ) (pubKey : PubKey) : Workload τ :=
  { wl with upgrade := true, prePubKey := pubKey }

def reportAddValidatedProof (wl : Workload τ) : Workload τ :=
  { wl with validatedProof := if wl.validatedProof ≥ 2 then 2 else wl.validatedProof + 1 }

def reportReduceValidatedProof (wl : Workload τ) : Workload τ :=
  { wl with validatedProof := if wl.validatedProof = 0 then 0 else wl.validatedProof - 1 }

def setStatusAt (files : List (FileItem τ)) (i j : Nat) (c : UInt8) : List (FileItem τ) :=
  files.modify i fun f => f.setStatusChar j c

/-- `for (auto i : reported_files_idx)`: the origin status becomes the waiting status. -/
def ackFile (files : List (FileItem τ)) (i : Nat) : List (FileItem τ) :=
  files.modify i fun f => f.setStatusChar originStatus f.waiting

def handleReportResult (wl : Workload τ) : Workload τ :=
  { wl with
    checkedFiles := wl.reportedFilesIdx.foldl ackFile wl.checkedFiles
    reportedFilesIdx := [] }

/-! ### Restoring from a document -/

def pushHash (m : List (Bytes × List Bytes)) (path g : Bytes) : List (Bytes × List Bytes) :=
  insertKey ltBytes path ((findKey path m).getD [] ++ [g]) m

/-- The inner loop of `restore_srd` from the G hash `i` on, with the allocator's answers under the
path; `none` is the return with an error. -/
def restoreHashes (malloc : Nat → Bool) (path : Bytes) : Nat → List JSON →
    List (Bytes × List Bytes) → Option (List (Bytes × List Bytes))
  | _, [], m => some m
  | i, h :: hs, m =>
    match hexStringToBytesWith (malloc i) h.toStr with
    | none => none
    | some g => restoreHashes malloc path (i + 1) hs (pushHash m path g)

def restorePaths (malloc : Bytes → Nat → Bool) : List (Bytes × JSON) →
    List (Bytes × List Bytes) → Option (List (Bytes × List Bytes))
  | [], m => some m
  | (path, v) :: ps, m =>
    match restoreHashes (malloc path) path 0 v.loopRange m with
    | none => none
    | some m => restorePaths malloc ps m

def assignSrdInfo (info : JSON) (m : List (Bytes × List Bytes)) : JSON :=
  m.foldl (fun info p => info.put p.1
    ((info.get p.1).put (str "assigned") (.integral p.2.length))) info

def restoreSrd (wl : Workload τ) (malloc : Bytes → Nat → Bool) (gHashs : JSON) :
    CrustStatus × Workload τ :=
  match restorePaths malloc gHashs.objectRange [] with
  | none => (.unexpectedError, { wl with srdPath2hashs := [] })
  | some m =>
    (.success, { wl with srdPath2hashs := m, srdInfoJson := assignSrdInfo wl.srdInfoJson m })

/-- `restore_file`: entry `i` of the document becomes entry `i` of `checked_files`. -/
def restoreFile (tagOf : Nat → τ) (wl : Workload τ) (fileJson : JSON) : Workload τ :=
  let items := fileJson.loopRange.zipIdx.map fun p => (⟨tagOf p.2, p.1⟩ : FileItem τ)
  items.foldl (fun wl f => wl.setWlSpec f.current f.oldSize) { wl with checkedFiles := items }

/-! ### The map of a document -/

/-- Every G hash of a document is decoded: its text can be, and there is a buffer for it. -/
def Decodable (malloc : Bytes → Nat → Bool) (ps : List (Bytes × JSON)) : Prop :=
  ∀ p ∈ ps, ∀ h ∈ p.2.loopRange.zipIdx, (hexStringToBytesWith (malloc p.1 h.2) h.1.toStr).isSome

def HashBuffers (malloc : Bytes → Nat → Bool) (m : List (Bytes × List Bytes)) : Prop :=
  ∀ p ∈ m, ∀ i < p.2.length, malloc p.1 i = true

instance (malloc : Bytes → Nat → Bool) (m : List (Bytes × List Bytes)) :
    Decidable (HashBuffers malloc m) :=
  inferInstanceAs (Decidable (∀ p ∈ m, ∀ i < p.2.length, malloc p.1 i = true))

def statedHashs (ps : List (Bytes × JSON)) (m : List (Bytes × List Bytes)) :
    List (Bytes × List Bytes) :=
  ps.foldl (fun m p => p.2.loopRange.foldl (fun m h => pushHash m p.1 (hexPairs h.toStr)) m) m

theorem hexStringToBytesWith_eq_some {malloc : Bool} {s b : Bytes}
    (h : hexStringToBytesWith malloc s = some b) : b = hexPairs s := by
  unfold hexStringToBytesWith at h
  split_ifs at h
  exact (Option.some.inj h).symm

theorem restoreHashes_eq_some {malloc : Nat → Bool} {path : Bytes} {i : Nat} {hs : List JSON}
    {m : List (Bytes × List Bytes)}
    (h : ∀ x ∈ hs.zipIdx i, (hexStringToBytesWith (malloc x.2) x.1.toStr).isSome) :
    restoreHashes malloc path i hs m =
      some (hs.foldl (fun m h => pushHash m path (hexPairs h.toStr)) m) := by
  induction hs generalizing i m with
  | nil => rfl
  | cons g hs ih =>
    rw [List.zipIdx_cons, List.forall_mem_cons] at h
    obtain ⟨b, hb⟩ := Option.isSome_iff_exists.mp h.1
    dsimp only at hb
    rw [restoreHashes, hb, List.foldl_cons, ← hexStringToBytesWith_eq_some hb]
    exact ih h.2

theorem restoreHashes_eq_none {malloc : Nat → Bool} {path : Bytes} {i : Nat} {hs : List JSON}
    {m : List (Bytes × List Bytes)}
    (h : ¬ ∀ x ∈ hs.zipIdx i, (hexStringToBytesWith (malloc x.2) x.1.toStr).isSome) :
    restoreHashes malloc path i hs m = none := by
  induction hs generalizing i m with
  | nil => exact absurd (List.forall_mem_nil _) h
  | cons g hs ih =>
    rw [List.zipIdx_cons, List.forall_mem_cons] at h
    rw [restoreHashes]
    cases hb : hexStringToBytesWith (malloc i) g.toStr with
    | none => rfl
    | some b => exact ih fun hrest => h ⟨by rw [hb]; rfl, hrest⟩

theorem restorePaths_eq_some {malloc : Bytes → Nat → Bool} {ps : List (Bytes × JSON)}
    {m : List (Bytes × List Bytes)} (h : Decodable malloc ps) :
    restorePaths malloc ps m = some (statedHashs ps m) := by
  induction ps generalizing m with
  | nil => rfl
  | cons p ps ih =>
    obtain ⟨hp, hps⟩ := List.forall_mem_cons.mp h
    rw [restorePaths, restoreHashes_eq_some hp]
    exact ih hps

theorem restorePaths_eq_none {malloc : Bytes → Nat → Bool} {ps : List (Bytes × JSON)}
    {m : List (Bytes × List Bytes)} (h : ¬ Decodable malloc ps) :
    restorePaths malloc ps m = none := by
  induction ps generalizing m with
  | nil => exact absurd (List.forall_mem_nil _) h
  | cons p ps ih =>
    rw [restorePaths]
    by_cases hp : ∀ x ∈ p.2.loopRange.zipIdx,
        (hexStringToBytesWith (malloc p.1 x.2) x.1.toStr).isSome
    · rw [restoreHashes_eq_some hp]
      exact ih fun hps => h (List.forall_mem_cons.mpr ⟨hp, hps⟩)
    · rw [restoreHashes_eq_none hp]

/-! ### Root hashes -/

def srdHashs (mem : Mem) (m : List (Bytes × List Bytes)) : List Hash :=
  m.flatMap fun p => p.2.map fun g => mem.read g 32

def concatHashs (hs : List Hash) : Bytes := hs.flatMap Subtype.val

/-- `checked_files[i][FILE_HASH].ToBytes()` for all entries; `none` when one of them
is not a hash, which the source dereferences. -/
def fileHashs : List (FileItem τ) → Option (List Hash)
  | [] => some []
  | f :: fs =>
    match (f.json.get fileHash).toBytes, fileHashs fs with
    | some h, some hs => some (h :: hs)
    | _, _ => none

/-- The two roots of `gen_workload_info`, which allocates only for what is not empty.
`none` is an allocation failure or a file hash that is not there: the caller then copies
from a null pointer. -/
def genWorkloadInfo (sha256 : Bytes → Hash) (mem : Mem) (allocSrd allocFiles : Bool)
    (wl : Workload τ) : Option (Hash × Hash) :=
  let srd := srdHashs mem wl.srdPath2hashs
  match fileHashs wl.checkedFiles with
  | none => none
  | some files =>
    if wl.srdPath2hashs ≠ [] ∧ ¬ encMalloc allocSrd (srd.length * hashLength) then none
    else if wl.checkedFiles.length ≠ 0 ∧ ¬ encMalloc allocFiles (files.length * hashLength) then
      none
    else
      some (if wl.srdPath2hashs = [] then zeroHash else sgxSha256Msg sha256 (concatHashs srd),
        if wl.checkedFiles.length = 0 then zeroHash else sgxSha256Msg sha256 (concatHashs files))

/-! ### The hashes behind the roots -/

theorem length_concatHashs (hs : List Hash) :
    (concatHashs hs).length = hs.length * hashLength := by
  induction hs with
  | nil => rfl
  | cons h hs ih =>
    rw [concatHashs, List.flatMap_cons, List.length_append, h.property, List.length_cons,
      Nat.succ_mul, ← ih]
    exact Nat.add_comm _ _

theorem concatHashs_injective {hs hs' : List Hash} (h : concatHashs hs = concatHashs hs') :
    hs = hs' := by
  induction hs generalizing hs' with
  | nil =>
    have hlen := congrArg List.length h
    rw [length_concatHashs, length_concatHashs, List.length_nil, Nat.zero_mul] at hlen
    exact (List.length_eq_zero_iff.mp (by simp only [hashLength] at hlen; omega)).symm
  | cons a hs ih =>
    cases hs' with
    | nil =>
      have hlen := congrArg List.length h
      rw [length_concatHashs, length_concatHashs] at hlen
      simp [hashLength] at hlen
    | cons b hs' =>
      obtain ⟨hab, htl⟩ := List.append_inj h (a.property.trans b.property.symm)
      rw [Subtype.ext hab, ih htl]

theorem length_fileHashs {files : List (FileItem τ)} {hs : List Hash}
    (h : fileHashs files = some hs) : hs.length = files.length := by
  induction files generalizing hs with
  | nil =>
    cases h
    rfl
  | cons f fs ih =>
    simp only [fileHashs] at h
    split at h
    · rename_i hs' _ hfs
      cases h
      rw [List.length_cons, List.length_cons, ih hfs]
    · cases h

theorem map_fileHash {files : List (FileItem τ)} {hs : List Hash}
    (h : fileHashs files = some hs) : files.map (fun f => f.json.get fileHash) = hs.map .hash := by
  induction files generalizing hs with
  | nil =>
    cases h
    rfl
  | cons f fs ih =>
    simp only [fileHashs] at h
    split at h
    · rename_i x hs' hx hfs
      cases h
      rw [List.map_cons, List.map_cons, ih hfs]
      unfold JSON.toBytes at hx
      split at hx
      · rename_i y hy
        cases hx
        rw [hy]
      · cases hx
    · cases h

end Workload

end CrustSworker

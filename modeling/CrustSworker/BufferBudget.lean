import CrustSworker.MetadataRoundTrip
import CrustSworker.UpgradeData

/-!
# The budgets of the two buffers

`serialize_file` and `id_store_metadata` count beforehand how many bytes their texts will take and
allocate that much. The counts are sums over the paths, the hashes and the files; each one allows
its term a number of bytes, and what a term does not need another one may use. The theorems say
when the whole fits, in the lengths that are not fixed: the paths, the account id, the decimals
and, where an entry is not one that sealing makes, its text.
-/

namespace CrustSworker.BufferBudget

open Metadata JsonParse Upgrade

variable {τ : Type}

section
variable (floatText : Bytes → Bytes → Bytes)

def entryText (f : FileItem τ) : Bytes := strip (f.json.dump floatText)

/-- The texts of the entries with one separator each. -/
def entriesLength (files : List (FileItem τ)) : Nat :=
  (files.map fun f => (entryText floatText f).length + 1).sum

end

def entryDigits (f : FileItem τ) : Nat :=
  (decInt (f.json.get fileSize).toInt).length + (decInt (f.json.get fileOldSize).toInt).length +
    (decInt (f.json.get fileBlockNum).toInt).length

def filesDigits (files : List (FileItem τ)) : Nat := (files.map entryDigits).sum

/-! ### Lengths -/

theorem length_commaSep (xs : List Bytes) :
    (commaSep xs).length + min xs.length 1 = (xs.map fun x => x.length + 1).sum := by
  induction xs with
  | nil => rfl
  | cons x xs ih =>
    cases xs with
    | nil => simp [commaSep]
    | cons y ys =>
      have hcomma : (str ",").length = 1 := rfl
      rw [List.map_cons, List.sum_cons, ← ih, commaSep_cons]
      simp only [List.length_cons, List.length_append]
      omega

theorem length_member (key text : Bytes) : (member key text).length = key.length + 3 + text.length := by
  have hquote : (str "\"").length = 1 := rfl
  have hcolon : (str ":").length = 1 := rfl
  rw [member, quoted, List.length_append, List.length_append, List.length_append,
    List.length_append, hquote, hcolon]
  omega

theorem length_quoted (s : Bytes) : (quoted s).length = s.length + 2 := by
  have hquote : (str "\"").length = 1 := rfl
  rw [quoted, List.length_append, List.length_append, hquote]
  omega

theorem length_entryText {floatText : Bytes → Bytes → Bytes} {f : FileItem τ}
    (h : IsEntry f.json) : (entryText floatText f).length + 31 = fileItemLen + entryDigits f := by
  obtain ⟨e, he, hj⟩ := h
  obtain ⟨hesc, -, hkept⟩ := he.status_plain
  have hkeys : ∀ p ∈ [(fileBlockNum, JSON.integral e.blockNum), (fileHash, .hash e.hash),
      (fileOldHash, .hash e.oldHash), (fileOldSize, .integral e.oldSize),
      (fileSize, .integral e.size), (fileStatus, .string e.status)], Kept p.1 := by
    simp only [List.mem_cons, List.not_mem_nil, or_false, forall_eq_or_imp, forall_eq]
    decide
  have hhash : ∀ x : Hash, (quoted (hashTag ++ hexstringSafe x.val)).length =
      hashTag.length + 64 + 2 := by
    intro x
    rw [length_quoted, List.length_append, length_hexstringSafe, x.property]
  have hdigits : entryDigits f =
      (decInt e.size).length + (decInt e.oldSize).length + (decInt e.blockNum).length := by
    rw [entryDigits, hj]
    rfl
  have htext := length_commaSep
    ([(fileBlockNum, JSON.integral e.blockNum), (fileHash, .hash e.hash),
      (fileOldHash, .hash e.oldHash), (fileOldSize, .integral e.oldSize),
      (fileSize, .integral e.size), (fileStatus, .string e.status)].map fun p =>
        member p.1 (strip (p.2.dumpAt floatText (1 + 1))))
  simp only [List.map_cons, List.map_nil, List.length_cons, List.length_nil, List.sum_cons,
    List.sum_nil, length_member, strip_dump_integral, strip_dump_hash,
    strip_dump_string floatText hesc hkept, hhash, length_quoted, he.length] at htext
  have hopen : (str "\x7b").length = 1 := rfl
  have hclose : (str "\x7d").length = 1 := rfl
  rw [entryText, hj, Entry.json, JSON.dump, strip_dump_object floatText hkeys, List.length_append,
    List.length_append, hopen, hclose, hdigits, fileItemLen]
  simp only [List.map_cons, List.map_nil, strip_dump_integral, strip_dump_hash,
    strip_dump_string floatText hesc hkept] at htext ⊢
  omega

theorem length_files (floatText : Bytes → Bytes → Bytes) (files : List (FileItem τ)) :
    (commaSep (files.map fun f => strip (f.json.dump floatText))).length + min files.length 1 =
      entriesLength floatText files := by
  have hlen := length_commaSep (files.map fun f => strip (f.json.dump floatText))
  rw [List.length_map, List.map_map] at hlen
  exact hlen

theorem entriesLength_eq (floatText : Bytes → Bytes → Bytes) {files : List (FileItem τ)}
    (h : ∀ f ∈ files, IsEntry f.json) :
    entriesLength floatText files + 30 * files.length =
      files.length * fileItemLen + filesDigits files := by
  induction files with
  | nil => simp [entriesLength, filesDigits]
  | cons f files ih =>
    have hf : (entryText floatText f).length + 31 = fileItemLen + entryDigits f :=
      length_entryText (h f List.mem_cons_self)
    have hfiles := ih fun g hg => h g (List.mem_cons_of_mem f hg)
    rw [entriesLength, filesDigits] at hfiles ⊢
    rw [List.map_cons, List.sum_cons, List.map_cons, List.sum_cons, List.length_cons, Nat.add_mul]
    omega

/-! ### `serialize_file` -/

def FilesBudget (floatText : Bytes → Bytes → Bytes) (files : List (FileItem τ)) : Prop :=
  entriesLength floatText files < files.length * fileItemLen

/-- With the buffer it asked for, `serialize_file` writes behind the end unless the entries keep
within their budgets by a byte; entries that sealing makes do so with less than 30 digits each on
the average. -/
theorem serialize_fits_iff (floatText : Bytes → Bytes → Bytes) (malloc : Bool) (wl : Workload τ) :
    (serializeFile floatText id malloc wl ≠ none ↔
      (encMalloc malloc (wl.checkedFiles.length * fileItemLen) = true →
        FilesBudget floatText wl.checkedFiles)) ∧
    ((∀ f ∈ wl.checkedFiles, IsEntry f.json) →
      (FilesBudget floatText wl.checkedFiles ↔
        filesDigits wl.checkedFiles < 30 * wl.checkedFiles.length)) := by
  constructor
  · unfold serializeFile
    by_cases hmalloc : encMalloc malloc (wl.checkedFiles.length * fileItemLen) = true
    · have hlen := length_files floatText wl.checkedFiles
      have hopen : (str "[").length = 1 := rfl
      have hclose : (str "]").length = 1 := rfl
      rw [if_neg (not_not.mpr hmalloc)]
      simp only [id_eq, List.length_append, hopen, hclose, hmalloc, forall_const, FilesBudget]
      have hitem : 0 < fileItemLen := by decide
      have hzero : wl.checkedFiles.length = 0 → wl.checkedFiles.length * fileItemLen = 0 :=
        fun h => by rw [h, Nat.zero_mul]
      split_ifs with hfits
      · simp only [ne_eq, reduceCtorEq, not_false_eq_true, true_iff]
        omega
      · simp only [ne_eq, not_true_eq_false, false_iff]
        omega
    · simp [hmalloc]
  · intro hentries
    have heq := entriesLength_eq floatText hentries
    rw [FilesBudget]
    omega

def oneFile : Workload Unit :=
  { Seal.freshWorkload with checkedFiles := [⟨(), Seal.fileEntry zeroHash zeroHash 563 3 1⟩] }

theorem oneFile_entries : ∀ f ∈ oneFile.checkedFiles, IsEntry f.json := by
  intro f hf
  obtain rfl := List.mem_singleton.mp hf
  exact isEntry_fileEntry zeroHash zeroHash (by decide) (by decide) (by decide)

theorem serialize_fits_one : serializeFile (fun _ _ => []) id true oneFile ≠ none := by
  obtain ⟨hiff, hdigits⟩ := serialize_fits_iff (fun _ _ => []) true oneFile
  exact hiff.mpr fun _ => (hdigits oneFile_entries).mpr (by decide)

/-- Without a file there is no byte for the two brackets. -/
theorem serialize_empty_overruns :
    encMalloc true (Seal.freshWorkload.checkedFiles.length * fileItemLen) = true ∧
      serializeFile (fun _ _ => []) id true Seal.freshWorkload = none := by
  decide

/-! ### `id_store_metadata` -/

def pathBytes (m : List (Bytes × List Bytes)) : Nat := (m.map fun p => p.1.length).sum

def filledPaths (m : List (Bytes × List Bytes)) : Nat := (m.map fun p => min p.2.length 1).sum

theorem length_srdEntry (mem : Mem) (p : Bytes × List Bytes) :
    (srdEntry mem p).length + min p.2.length 1 = p.1.length + 5 + p.2.length * (64 + 3) := by
  have hlen := length_commaSep
    (p.2.map fun g => str "\"" ++ hexstringSafe (mem.read g 32).val ++ str "\"")
  have hhash : ∀ g : Bytes, (str "\"" ++ hexstringSafe (mem.read g 32).val ++ str "\"").length = 66 :=
    fun g => by
      rw [← quoted, length_quoted, length_hexstringSafe, (mem.read g 32).property]
  rw [List.length_map, List.map_map] at hlen
  simp only [Function.comp_def, hhash, List.map_const', List.sum_replicate_nat] at hlen
  have hlits : (str "\"").length = 1 ∧ (str "\":[").length = 3 ∧ (str "]").length = 1 := by decide
  simp only [srdEntry, List.length_append, hlits]
  omega

theorem length_paths (mem : Mem) (m : List (Bytes × List Bytes)) :
    (commaSep (m.map (srdEntry mem))).length + filledPaths m + min m.length 1 =
      pathBytes m + m.length * 6 + (m.map fun p => p.2.length * (64 + 3)).sum := by
  have hlen := length_commaSep (m.map (srdEntry mem))
  rw [List.length_map, List.map_map] at hlen
  have hsum : (m.map ((fun x : Bytes => x.length + 1) ∘ srdEntry mem)).sum + filledPaths m =
      pathBytes m + m.length * 6 + (m.map fun p => p.2.length * (64 + 3)).sum := by
    clear hlen
    induction m with
    | nil => rfl
    | cons p m ih =>
      have hp := length_srdEntry mem p
      rw [filledPaths, pathBytes] at ih ⊢
      simp only [List.map_cons, List.sum_cons, List.length_cons, Function.comp_apply] at ih ⊢
      omega
  omega

/-- What is not of a fixed length, against what the fixed parts leave for it. -/
def MetaBudget (floatText : Bytes → Bytes → Bytes) (wl : Workload τ) : Prop :=
  pathBytes wl.srdPath2hashs + (decNat wl.reportHeight.toNat).length + wl.accountId.length +
      entriesLength floatText wl.checkedFiles ≤
    126 * wl.srdPath2hashs.length + filledPaths wl.srdPath2hashs + min wl.srdPath2hashs.length 1 +
      148 + wl.checkedFiles.length * fileItemLen + min wl.checkedFiles.length 1

theorem length_metadataJson (mem : Mem) (floatText : Bytes → Bytes → Bytes) (wl : Workload τ) :
    (metadataJson mem floatText wl).length =
      idWorkload.length + idKeyPair.length + idReportHeight.length + idChainAccountId.length +
        idFile.length + (if wl.upgrade then idPrePubKey.length + 134 else 0) + 221 +
        (commaSep (wl.srdPath2hashs.map (srdEntry mem))).length +
        (decNat wl.reportHeight.toNat).length + wl.accountId.length +
        (commaSep (wl.checkedFiles.map fun f => strip (f.json.dump floatText))).length := by
  have hkeys : (hexstringSafe (keyPairBytes wl.idKeyPair)).length = 192 := by
    rw [length_hexstringSafe, keyPairBytes, List.length_append, wl.idKeyPair.pubKey.property,
      wl.idKeyPair.priKey.property]
  have hpre : (hexstringSafe wl.prePubKey.val).length = 128 := by
    rw [length_hexstringSafe, wl.prePubKey.property]
  have hlits : (str "\x7b\"").length = 2 ∧ (str "\":\x7b").length = 3 ∧ (str "\x7d,\"").length = 3 ∧
      (str "\":\"").length = 3 ∧ (str "\",\"").length = 3 ∧ (str "\":").length = 2 ∧
      (str ",\"").length = 2 ∧ (str "\",").length = 2 ∧ (str "\"").length = 1 ∧
      (str "\":[").length = 3 ∧ (str "]\x7d").length = 2 := by decide
  unfold metadataJson
  by_cases hupgrade : wl.upgrade = true
  · simp only [if_pos hupgrade, List.length_append, hlits, hkeys, hpre]
    omega
  · simp only [if_neg hupgrade, List.length_append, hlits, hkeys, List.length_nil]
    omega

theorem metadata_fits_iff (mem : Mem) (floatText : Bytes → Bytes → Bytes) (wl : Workload τ) :
    (sworkerPrivateTag ++ metadataJson mem floatText wl).length ≤ metaLen wl ↔
      MetaBudget floatText wl := by
  have hpaths := length_paths mem wl.srdPath2hashs
  have hfiles := length_files floatText wl.checkedFiles
  have hpre : (if wl.upgrade then idPrePubKey.length + 3 + 64 * 2 + 3 else 0) =
      if wl.upgrade then idPrePubKey.length + 134 else 0 := rfl
  rw [List.length_append, length_metadataJson, metaLen, hpre, MetaBudget]
  omega

/-- With the buffer it asked for, `id_store_metadata` writes behind the end unless the paths, the
account id and the numbers keep within what is left for them. -/
theorem store_fits_iff (mem : Mem) (floatText : Bytes → Bytes → Bytes) (env : StoreEnv)
    (wl : Workload τ) :
    (storeMetadata mem floatText env wl ≠ none ↔
      (wl.upgradeStatus ≠ .success → encMalloc env.mallocMeta (metaLen wl) = true →
        MetaBudget floatText wl)) ∧
    ((∀ f ∈ wl.checkedFiles, IsEntry f.json) →
      (MetaBudget floatText wl ↔
        pathBytes wl.srdPath2hashs + (decNat wl.reportHeight.toNat).length + wl.accountId.length +
            filesDigits wl.checkedFiles ≤
          126 * wl.srdPath2hashs.length + filledPaths wl.srdPath2hashs +
            min wl.srdPath2hashs.length 1 + 148 + 30 * wl.checkedFiles.length +
            min wl.checkedFiles.length 1)) := by
  constructor
  · rw [storeMetadata, idStoreMetadata]
    by_cases hstatus : wl.upgradeStatus = .success
    · simp [hstatus]
    by_cases hmalloc : encMalloc env.mallocMeta (metaLen wl) = true
    · rw [if_neg hstatus, if_neg (not_not.mpr hmalloc), ← metadata_fits_iff mem]
      simp [hstatus, hmalloc]
    · simp [hstatus, hmalloc]
  · intro hentries
    have heq := entriesLength_eq floatText hentries
    rw [MetaBudget]
    omega

theorem store_fits_one :
    storeMetadata ⟨fun _ _ => 0⟩ (fun _ _ => []) ⟨true, .success⟩ oneFile ≠ none := by
  obtain ⟨hiff, hdigits⟩ := store_fits_iff ⟨fun _ _ => 0⟩ (fun _ _ => []) ⟨true, .success⟩ oneFile
  exact hiff.mpr fun _ _ => (hdigits oneFile_entries).mpr (by decide)

/-- An account id of 200 bytes, and nothing else. -/
theorem store_account_overruns :
    storeMetadata ⟨fun _ _ => 0⟩ (fun _ _ => []) ⟨true, .success⟩
      { Seal.freshWorkload with accountId := List.replicate 200 97 } = none := by
  decide +kernel

end CrustSworker.BufferBudget

import CrustSworker.EntryText

/-!
# Storing and restoring

A workload is written to the sealed store and read by a fresh enclave. The store writes into
a buffer whose size it has estimated beforehand; `storeMetadata` has no result when the text
is longer than that. What the store was given replaces what it had, and when it is given
nothing, as after a hand-over, the old document is what the next start finds.
-/

namespace CrustSworker.Metadata

open JsonParse OrderedMap

variable {τ : Type}

/-- `id_store_metadata` with the buffer it writes to; `none` is a write behind its end. -/
def storeMetadata (mem : Mem) (floatText : Bytes → Bytes → Bytes) (env : StoreEnv)
    (wl : Workload τ) : Option (CrustStatus × Option Bytes) :=
  match idStoreMetadata mem floatText env wl with
  | (status, none) => some (status, none)
  | (status, some data) => if data.length ≤ metaLen wl then some (status, some data) else none

def storeThenRestore (mem : Mem) (floatText : Bytes → Bytes → Bytes) (tagOf : Nat → τ)
    (senv : StoreEnv) (renv : RestoreEnv) (db : Option Bytes) (wl fresh : Workload τ) :
    Option (CrustStatus × Workload τ) :=
  match storeMetadata mem floatText senv wl with
  | none => none
  | some (_, data) => idRestoreMetadata mem tagOf renv fresh (data.or db)

structure SameMetadata (mem : Mem) (wl wl' : Workload τ) : Prop where
  srd : wl'.srdPath2hashs = storedSrd mem wl.srdPath2hashs
  files : wl'.checkedFiles.map FileItem.json = wl.checkedFiles.map FileItem.json
  keyPair : wl'.isSetKeyPair = true ∧ wl'.idKeyPair = wl.idKeyPair
  height : wl'.reportHeight = wl.reportHeight
  account : wl'.accountId = wl.accountId
  upgrade : wl'.upgrade = wl.upgrade
  preKey : wl.upgrade = true → wl'.prePubKey = wl.prePubKey

structure NoEscapes (wl : Workload τ) : Prop where
  paths : ∀ p ∈ wl.srdPath2hashs, NoEscape p.1
  account : NoEscape wl.accountId

structure NoTags (wl : Workload τ) : Prop where
  paths : ∀ p ∈ wl.srdPath2hashs, Untagged p.1
  account : Untagged wl.accountId

/-- The shape of a workload: a map is in the order of its keys, `checked_files` holds file
entries, and the statistics are numbers by status. -/
structure WellFormed (wl : Workload τ) : Prop where
  paths : Sorted ltBytes wl.srdPath2hashs
  files : ∀ f ∈ wl.checkedFiles, IsEntry f.json
  spec : IsSpec wl.wlSpecInfo

/-! ### The document -/

def metadataFields (mem : Mem) (floatText : Bytes → Bytes → Bytes) (wl : Workload τ) :
    List Field :=
  [⟨idWorkload, str "\x7b" ++ commaSep (wl.srdPath2hashs.map (srdEntry mem)) ++ str "\x7d",
      srdValue mem wl.srdPath2hashs⟩,
    ⟨idKeyPair, quoted (hexstringSafe (keyPairBytes wl.idKeyPair)),
      .string (hexstringSafe (keyPairBytes wl.idKeyPair))⟩,
    ⟨idReportHeight, decInt wl.reportHeight.toNat, .integral wl.reportHeight.toNat⟩,
    ⟨idChainAccountId, quoted wl.accountId, .string wl.accountId⟩]
  ++ (if wl.upgrade then
      [⟨idPrePubKey, quoted (hexstringSafe wl.prePubKey.val),
        .string (hexstringSafe wl.prePubKey.val)⟩]
    else [])
  ++ [⟨idFile, str "[" ++ commaSep (wl.checkedFiles.map fun f => strip (f.json.dump floatText))
      ++ str "]", .array (wl.checkedFiles.map FileItem.json)⟩]

def metadataDoc (mem : Mem) (floatText : Bytes → Bytes → Bytes) (wl : Workload τ) : JSON :=
  documentOf (metadataFields mem floatText wl)

section
variable (mem : Mem) (floatText : Bytes → Bytes → Bytes) {wl : Workload τ}

theorem metadataJson_eq (wl : Workload τ) :
    metadataJson mem floatText wl = documentText (metadataFields mem floatText wl) := by
  have h₁ : str "\x7b\"" = str "\x7b" ++ str "\"" := by decide
  have h₂ : str "\":\x7b" = str "\"" ++ (str ":" ++ str "\x7b") := by decide
  have h₃ : str "\x7d,\"" = str "\x7d" ++ (str "," ++ str "\"") := by decide
  have h₄ : str "\":\"" = str "\"" ++ (str ":" ++ str "\"") := by decide
  have h₅ : str "\",\"" = str "\"" ++ (str "," ++ str "\"") := by decide
  have h₆ : str "\":" = str "\"" ++ str ":" := by decide
  have h₇ : str ",\"" = str "," ++ str "\"" := by decide
  have h₈ : str "\"," = str "\"" ++ str "," := by decide
  have h₉ : str "\":[" = str "\"" ++ (str ":" ++ str "[") := by decide
  have h₁₀ : str "]\x7d" = str "]" ++ str "\x7d" := by decide
  have hheight : decInt (wl.reportHeight.toNat : Int) = decNat wl.reportHeight.toNat := by
    simp [decInt]
  have hcons : ∀ (x y : Bytes) (xs : List Bytes),
      commaSep (x :: y :: xs) = x ++ (str "," ++ commaSep (y :: xs)) := fun x y xs => by
    rw [commaSep_cons]
    rfl
  have hone : ∀ x : Bytes, commaSep [x] = x := fun _ => rfl
  unfold metadataJson documentText metadataFields
  cases hup : wl.upgrade with
  | true =>
    simp only [ if_true, List.map_cons,
      List.map_nil, List.cons_append, List.nil_append, hcons, hone, member, quoted, hheight, h₁, h₂,
      h₃, h₄, h₅, h₆, h₇, h₈, h₉, h₁₀, List.append_assoc]
  | false =>
    simp only [ if_false, Bool.false_eq_true,
      List.map_cons, List.map_nil, List.cons_append, List.nil_append, hcons, hone, member, quoted,
      hheight, h₁, h₂, h₃, h₄, h₅, h₆, h₇, h₈, h₉, h₁₀, List.append_assoc]

theorem metadataFields_keys (wl : Workload τ) :
    (metadataFields mem floatText wl).map Field.key =
      [idWorkload, idKeyPair, idReportHeight, idChainAccountId]
        ++ (if wl.upgrade then [idPrePubKey] else []) ++ [idFile] := by
  unfold metadataFields
  cases wl.upgrade <;> rfl

theorem metadataFields_plain (wl : Workload τ) :
    ∀ k ∈ (metadataFields mem floatText wl).map Field.key, NoEscape k ∧ Untagged k := by
  rw [metadataFields_keys]
  cases wl.upgrade <;> decide

theorem metadataFields_nodup (wl : Workload τ) :
    ((metadataFields mem floatText wl).map Field.key).Nodup := by
  rw [metadataFields_keys]
  cases wl.upgrade <;> decide

theorem metadataFields_token (hn : NoEscapes wl) (ht : NoTags wl) (hwf : WellFormed wl)
    (hheight : wl.reportHeight.toNat < 2 ^ 63) {f : Field}
    (hf : f ∈ metadataFields mem floatText wl) :
    Token .buffer mem f.text f.value := by
  have hstring : ∀ s : Bytes, NoEscape s → Untagged s →
      Token .buffer mem (quoted s) (.string s) := by
    intro s hs hu
    rw [← stringValue_untagged mem hu]
    exact token_quoted hs
  have hhex : ∀ b : Bytes, Token .buffer mem (quoted (hexstringSafe b)) (.string (hexstringSafe b)) :=
    fun b => hstring _ (noEscape_hexstringSafe b) (untagged_hexstringSafe b)
  have hpre : f ∈ (if wl.upgrade then
      [(⟨idPrePubKey, quoted (hexstringSafe wl.prePubKey.val),
        .string (hexstringSafe wl.prePubKey.val)⟩ : Field)] else []) →
      f = ⟨idPrePubKey, quoted (hexstringSafe wl.prePubKey.val),
        .string (hexstringSafe wl.prePubKey.val)⟩ := by
    intro h
    split_ifs at h
    · exact List.mem_singleton.mp h
    · cases h
  unfold metadataFields at hf
  rcases List.mem_append.mp hf with hf | hf
  · rcases List.mem_append.mp hf with hf | hf
    · simp only [List.mem_cons, List.not_mem_nil, or_false] at hf
      rcases hf with rfl | rfl | rfl | rfl
      · exact token_srd hwf.paths hn.paths ht.paths
      · exact hhex _
      · have hlong : IsLong (wl.reportHeight.toNat : Int) := ⟨by omega, by omega⟩
        exact token_decInt hlong.1 hlong.2
      · exact hstring _ hn.account ht.account
    · rw [hpre hf]
      exact hhex _
  · rw [List.mem_singleton.mp hf]
    exact token_files floatText hwf.files

theorem metadataDoc_hasPreKey (wl : Workload τ) :
    (metadataDoc mem floatText wl).hasKey idPrePubKey = wl.upgrade := by
  rw [Bool.eq_iff_iff, metadataDoc, documentOf_hasKey, metadataFields_keys]
  cases wl.upgrade <;> decide

theorem get_put_get (j : JSON) (k k' : Bytes) : (j.put k (j.get k)).get k' = j.get k' := by
  by_cases h : k' = k
  · rw [h, JSON.get_put_self]
  · rw [JSON.get_put_ne j h]

theorem hasKey_put {j : JSON} (hj : isObject j = true) (k k' : Bytes) (v : JSON) :
    (j.put k v).hasKey k' = (decide (k' = k) || j.hasKey k') := by
  cases j with
  | object m =>
    by_cases h : k' = k
    · simp [JSON.put, JSON.hasKey, h]
    · simp [JSON.put, JSON.hasKey, findKey_insertKey_ne ltBytes h, h]
  | _ => cases hj

theorem size_put_pos (j : JSON) (k : Bytes) (v : JSON) : 0 < (j.put k v).size := by
  have hins : ∀ m : List (Bytes × JSON), 0 < (insertKey ltBytes k v m).length := by
    intro m
    cases m with
    | nil => simp [insertKey]
    | cons p m =>
      simp only [insertKey]
      split_ifs <;> simp
  cases j with
  | object m => simpa [JSON.put, JSON.size] using hins m
  | _ => simp [JSON.put, JSON.size]

theorem metadataDoc_size (wl : Workload τ) : 0 < (metadataDoc mem floatText wl).size := by
  unfold metadataDoc documentOf metadataFields
  rw [List.map_append, List.map_cons, List.map_nil, objectOf_append]
  exact size_put_pos _ _ _

theorem metadataJson_loads (hn : NoEscapes wl) (ht : NoTags wl) (hwf : WellFormed wl)
    (hheight : wl.reportHeight.toNat < 2 ^ 63) {size : Nat} (hsize : size ≠ 0) :
    JsonParse.loadBuffer mem (metadataJson mem floatText wl) size =
      .ok (metadataDoc mem floatText wl) := by
  have hreads := reads_document (metadataFields_plain mem floatText wl)
    fun f hf => metadataFields_token mem floatText hn ht hwf hheight hf
  have h := loadBuffer_of_reads hreads [] hsize
  rwa [List.append_nil, ← metadataJson_eq] at h

end

/-! ### The restored workload -/

/-- The database answers with what it was given, and memory is available. -/
structure Faithful (floatText : Bytes → Bytes → Bytes) (wl : Workload τ) (env : RestoreEnv) :
    Prop where
  mallocKey : env.mallocKey = true
  mallocPreKey : env.mallocPreKey = true
  mallocHash : Workload.HashBuffers env.mallocHash wl.srdPath2hashs
  spec : env.wlSpecInfo = (.success, some (strip (wl.wlSpecInfo.dump floatText)))

section
variable {mem : Mem} {floatText : Bytes → Bytes → Bytes} {wl fresh : Workload τ}
  {tagOf : Nat → τ} {renv : RestoreEnv}

def loadedDoc (mem : Mem) (floatText : Bytes → Bytes → Bytes) (wl : Workload τ) : JSON :=
  (metadataDoc mem floatText wl).put idKeyPair ((metadataDoc mem floatText wl).get idKeyPair)

theorem loadedDoc_get (mem : Mem) (floatText : Bytes → Bytes → Bytes) (wl : Workload τ) {f : Field}
    (hf : f ∈ metadataFields mem floatText wl) :
    (loadedDoc mem floatText wl).get f.key = f.value := by
  rw [loadedDoc, get_put_get, metadataDoc, documentOf_get (metadataFields_nodup mem floatText wl) hf]

theorem loadedDoc_hasKey (wl : Workload τ) (k : Bytes) :
    (loadedDoc mem floatText wl).hasKey k =
      (decide (k = idKeyPair) || (metadataDoc mem floatText wl).hasKey k) :=
  hasKey_put (isObject_objectOf _) _ _ _

theorem mem_metadataFields_srd : ⟨idWorkload,
    str "\x7b" ++ commaSep (wl.srdPath2hashs.map (srdEntry mem)) ++ str "\x7d",
    srdValue mem wl.srdPath2hashs⟩ ∈ metadataFields mem floatText wl := by
  simp [metadataFields]

theorem mem_metadataFields_key : ⟨idKeyPair, quoted (hexstringSafe (keyPairBytes wl.idKeyPair)),
    .string (hexstringSafe (keyPairBytes wl.idKeyPair))⟩ ∈ metadataFields mem floatText wl := by
  simp [metadataFields]

theorem mem_metadataFields_height : ⟨idReportHeight, decInt wl.reportHeight.toNat,
    .integral wl.reportHeight.toNat⟩ ∈ metadataFields mem floatText wl := by
  simp [metadataFields]

theorem mem_metadataFields_account : ⟨idChainAccountId, quoted wl.accountId,
    .string wl.accountId⟩ ∈ metadataFields mem floatText wl := by
  simp [metadataFields]

theorem mem_metadataFields_preKey (h : wl.upgrade = true) :
    ⟨idPrePubKey, quoted (hexstringSafe wl.prePubKey.val),
      .string (hexstringSafe wl.prePubKey.val)⟩ ∈ metadataFields mem floatText wl := by
  simp [metadataFields, h]

theorem mem_metadataFields_files : ⟨idFile,
    str "[" ++ commaSep (wl.checkedFiles.map fun f => strip (f.json.dump floatText)) ++ str "]",
    .array (wl.checkedFiles.map FileItem.json)⟩ ∈ metadataFields mem floatText wl := by
  simp [metadataFields]

theorem hexField {b : Bytes} (hb : b ≠ []) :
    hexStringToBytes (JSON.string (hexstringSafe b)).toStr = some b := by
  rw [JSON.toStr, jsonEscape_of_noEscape (noEscape_hexstringSafe b),
    hexStringToBytes_hexstringSafe hb]

theorem keyPairOf_keyPairBytes (mem : Mem) (k : KeyPair) :
    keyPairOf (mem.read (keyPairBytes k) 96) = k := by
  have hlen : (keyPairBytes k).length = 96 := by
    rw [keyPairBytes, List.length_append, k.pubKey.property, k.priKey.property]
  have hread : (mem.read (keyPairBytes k) 96).val = k.pubKey.val ++ k.priKey.val := by
    rw [mem.read_of_le hlen.ge, List.take_of_length_le hlen.le, keyPairBytes]
  obtain ⟨pub, pri⟩ := k
  have htake : (pub.val ++ pri.val).take 64 = pub.val := by
    rw [List.take_append_of_le_length pub.property.ge, List.take_of_length_le pub.property.le]
  have hdrop : (pub.val ++ pri.val).drop 64 = pri.val := by
    rw [List.drop_append_of_le_length pub.property.ge, List.drop_of_length_le pub.property.le,
      List.nil_append]
  simp only [keyPairOf, hread, htake, hdrop]

theorem keyPairIn_loadedDoc (wl : Workload τ) :
    keyPairIn mem (loadedDoc mem floatText wl) = some wl.idKeyPair := by
  have hne : keyPairBytes wl.idKeyPair ≠ [] := by
    intro h
    have hl := congrArg List.length h
    rw [keyPairBytes, List.length_append, wl.idKeyPair.pubKey.property] at hl
    simp at hl
  rw [keyPairIn, loadedDoc_get mem floatText wl mem_metadataFields_key, hexField hne]
  exact congrArg some (keyPairOf_keyPairBytes mem wl.idKeyPair)

theorem idGetMetadata_stored (mem : Mem) (floatText : Bytes → Bytes → Bytes) (renv : RestoreEnv)
    (hn : NoEscapes wl) (ht : NoTags wl) (hwf : WellFormed wl)
    (hheight : wl.reportHeight.toNat < 2 ^ 63) (fresh : Workload τ) :
    ∃ status, idGetMetadata mem renv fresh
        (some (sworkerPrivateTag ++ metadataJson mem floatText wl)) =
      some (status, loadedDoc mem floatText wl) := by
  have hlen : (sworkerPrivateTag ++ metadataJson mem floatText wl).length ≠ 0 := by
    rw [List.length_append]
    have : sworkerPrivateTag.length = 23 := by decide
    omega
  have hsize := metadataDoc_size mem floatText wl
  rw [idGetMetadata, if_neg hlen, List.drop_left,
    metadataJson_loads mem floatText hn ht hwf hheight hlen]
  dsimp only
  rw [if_neg (by omega)]
  have hkey : keyPairIn mem ((metadataDoc mem floatText wl).put idKeyPair
      ((metadataDoc mem floatText wl).get idKeyPair)) = some wl.idKeyPair := keyPairIn_loadedDoc wl
  rw [hkey]
  dsimp only
  split_ifs
  · exact ⟨_, rfl⟩
  · exact ⟨_, rfl⟩
  · exact ⟨_, rfl⟩

theorem restoreSpec_stored (hwf : WellFormed wl) (henv : Faithful floatText wl renv)
    (fresh : Workload τ) :
    restoreSpec mem renv fresh = some { fresh with wlSpecInfo := wl.wlSpecInfo } := by
  unfold restoreSpec
  rw [henv.spec]
  dsimp only
  rw [hwf.spec.load mem floatText]

theorem restoreSrdIn_stored (hwf : WellFormed wl) (henv : Faithful floatText wl renv)
    (fresh : Workload τ) :
    restoreSrdIn renv fresh (loadedDoc mem floatText wl) =
      (true, { fresh with
        srdPath2hashs := storedSrd mem wl.srdPath2hashs
        srdInfoJson := Workload.assignSrdInfo fresh.srdInfoJson
          (storedSrd mem wl.srdPath2hashs) }) := by
  have hhas : (loadedDoc mem floatText wl).hasKey idWorkload = true := by
    rw [loadedDoc_hasKey, Bool.or_eq_true]
    right
    rw [metadataDoc, documentOf_hasKey, metadataFields_keys]
    simp
  have hget := loadedDoc_get mem floatText wl mem_metadataFields_srd
  dsimp only at hget
  have hobj : isObject (srdValue mem wl.srdPath2hashs) = true := rfl
  rw [restoreSrdIn, hget, if_pos ⟨hhas, hobj⟩, Workload.restoreSrd,
    restorePaths_stored hwf.paths henv.mallocHash]

theorem restoreFilesIn_stored (mem : Mem) (floatText : Bytes → Bytes → Bytes) (tagOf : Nat → τ)
    (wl fresh : Workload τ) :
    ∃ items, restoreFilesIn tagOf fresh (loadedDoc mem floatText wl) =
        { fresh with checkedFiles := items } ∧
      items.map FileItem.json = wl.checkedFiles.map FileItem.json ∧
      items.map FileItem.tag = (List.range wl.checkedFiles.length).map tagOf := by
  have hget := loadedDoc_get mem floatText wl mem_metadataFields_files
  dsimp only at hget
  refine ⟨(wl.checkedFiles.map FileItem.json).zipIdx.map fun p => ⟨tagOf p.2, p.1⟩, ?_, ?_, ?_⟩
  · rw [restoreFilesIn, hget]
  · rw [List.map_map]
    exact List.zipIdx_map_fst 0 _
  · have hidx := List.zipIdx_map_snd 0 (wl.checkedFiles.map FileItem.json)
    rw [List.length_map, ← List.range_eq_range'] at hidx
    rw [List.map_map, ← hidx, List.map_map]
    rfl

theorem restoreIdentity_stored (hn : NoEscapes wl) (hm : renv.mallocKey = true)
    (hp : renv.mallocPreKey = true) (fresh : Workload τ) (hfresh : fresh.upgrade = false) :
    restoreIdentity mem renv fresh (loadedDoc mem floatText wl) =
      (.success, { fresh with
        idKeyPair := wl.idKeyPair
        isSetKeyPair := true
        reportHeight := wl.reportHeight
        upgrade := wl.upgrade
        prePubKey := if wl.upgrade then wl.prePubKey else fresh.prePubKey
        accountId := wl.accountId
        restartFlag := true }) := by
  have hheight := loadedDoc_get mem floatText wl mem_metadataFields_height
  have haccount := loadedDoc_get mem floatText wl mem_metadataFields_account
  dsimp only at hheight haccount
  have hnum : UInt64.ofNat (sizeT (wl.reportHeight.toNat : Int)) = wl.reportHeight := by
    have hlt := wl.reportHeight.toNat_lt
    have hval : sizeT (wl.reportHeight.toNat : Int) = wl.reportHeight.toNat := by
      simp only [sizeT]
      omega
    rw [hval, UInt64.ofNat_toNat]
  have hacc : (JSON.string wl.accountId).toStr = wl.accountId := by
    rw [JSON.toStr, jsonEscape_of_noEscape hn.account]
  have hhas : (loadedDoc mem floatText wl).hasKey idPrePubKey = wl.upgrade := by
    rw [loadedDoc_hasKey, metadataDoc_hasPreKey, show decide (idPrePubKey = idKeyPair) = false from rfl,
      Bool.false_or]
  rw [restoreIdentity, keyPairIn_loadedDoc, hheight, haccount, hhas, hacc]
  simp only [JSON.toInt, hnum]
  rw [if_neg (by simp [hm])]
  cases hup : wl.upgrade with
  | false =>
    rw [if_neg (by simp)]
    simp [Workload.setKeyPair, hfresh]
  | true =>
    have hpre := loadedDoc_get mem floatText wl (mem_metadataFields_preKey hup)
    dsimp only at hpre
    rw [if_pos rfl, hpre, hexField (byteArr_ne_nil wl.prePubKey (by decide))]
    dsimp only
    rw [if_neg (by simp [hp]), mem.read_full wl.prePubKey]
    rfl

theorem storeMetadata_stored {senv : StoreEnv} (hopen : wl.upgradeStatus ≠ .success)
    (hmalloc : encMalloc senv.mallocMeta (metaLen wl) = true)
    (hfits : (sworkerPrivateTag ++ metadataJson mem floatText wl).length ≤ metaLen wl) :
    storeMetadata mem floatText senv wl =
      some (senv.persistSet, some (sworkerPrivateTag ++ metadataJson mem floatText wl)) := by
  rw [storeMetadata, idStoreMetadata, if_neg hopen, if_neg (by simp [hmalloc])]
  dsimp only
  rw [if_pos hfits]

theorem restores_stored (tagOf : Nat → τ) (db : Option Bytes) {senv : StoreEnv} {keys : KeyPair}
    {pre : PubKey} (hfresh : fresh = Workload.init keys pre) (hn : NoEscapes wl) (ht : NoTags wl)
    (hwf : WellFormed wl) (hopen : wl.upgradeStatus ≠ .success)
    (hheight : wl.reportHeight.toNat < 2 ^ 63)
    (hmalloc : encMalloc senv.mallocMeta (metaLen wl) = true)
    (hfits : (sworkerPrivateTag ++ metadataJson mem floatText wl).length ≤ metaLen wl)
    (henv : Faithful floatText wl renv) :
    ∃ wl', storeThenRestore mem floatText tagOf senv renv db wl fresh = some (.success, wl') ∧
      SameMetadata mem wl wl' ∧ wl'.wlSpecInfo = wl.wlSpecInfo ∧ wl'.newFiles = [] ∧
      wl'.checkedFiles.map FileItem.tag = (List.range wl.checkedFiles.length).map tagOf := by
  obtain ⟨status, hget⟩ := idGetMetadata_stored mem floatText renv hn ht hwf hheight fresh
  have hsize : ¬ (loadedDoc mem floatText wl).size ≤ 0 :=
    not_le.mpr (size_put_pos _ _ _)
  obtain ⟨items, hitems, hjson, htags⟩ := restoreFilesIn_stored mem floatText tagOf wl { fresh with
      wlSpecInfo := wl.wlSpecInfo
      srdPath2hashs := storedSrd mem wl.srdPath2hashs
      srdInfoJson := Workload.assignSrdInfo fresh.srdInfoJson (storedSrd mem wl.srdPath2hashs) }
  have hup : fresh.upgrade = false := by rw [hfresh]; rfl
  have hnew : fresh.newFiles = [] := by rw [hfresh]; rfl
  rw [storeThenRestore, storeMetadata_stored hopen hmalloc hfits]
  simp only [Option.some_or]
  rw [idRestoreMetadata, hget]
  dsimp only
  rw [if_neg hsize, restoreContents, restoreSpec_stored hwf henv]
  dsimp only
  rw [restoreSrdIn_stored hwf henv]
  dsimp only
  rw [hitems, restoreIdentity_stored hn henv.mallocKey henv.mallocPreKey]
  · refine ⟨_, rfl, ⟨rfl, hjson, ⟨rfl, rfl⟩, rfl, rfl, rfl, fun h => ?_⟩, rfl, hnew, htags⟩
    dsimp only
    rw [if_pos h]
  · exact hup

/-- What was stored before a hand-over is what a fresh enclave restores. -/
theorem stored_is_restored {senv : StoreEnv} {db : Option Bytes} {keys : KeyPair} {pre : PubKey}
    (hfresh : fresh = Workload.init keys pre) (hn : NoEscapes wl) (ht : NoTags wl)
    (hwf : WellFormed wl) (hopen : wl.upgradeStatus ≠ .success)
    (hheight : wl.reportHeight.toNat < 2 ^ 63)
    (hmalloc : encMalloc senv.mallocMeta (metaLen wl) = true)
    (hfits : (sworkerPrivateTag ++ metadataJson mem floatText wl).length ≤ metaLen wl)
    (henv : Faithful floatText wl renv) :
    ∃ wl', storeThenRestore mem floatText tagOf senv renv db wl fresh = some (.success, wl') ∧
      SameMetadata mem wl wl' := by
  obtain ⟨wl', hrun, hsame, -⟩ :=
    restores_stored tagOf db hfresh hn ht hwf hopen hheight hmalloc hfits henv
  exact ⟨wl', hrun, hsame⟩

end

/-! ### A small workload -/

theorem isSpec_init (keys : KeyPair) (pre : PubKey) :
    IsSpec (Workload.init keys pre : Workload τ).wlSpecInfo := by
  have hsub : Sorted ltBytes [(str "num", JSON.integral 0), (str "size", .integral 0)] ∧
      ∀ q ∈ [(str "num", JSON.integral 0), (str "size", .integral 0)],
        PlainKey q.1 ∧ ∃ n, q.2 = .integral n ∧ IsLong n := by
    constructor
    · simp only [Sorted, List.pairwise_cons, List.mem_cons, List.not_mem_nil, or_false, forall_eq,
        false_implies, implies_true, List.Pairwise.nil, and_true]
      decide
    · simp only [List.mem_cons, List.not_mem_nil, or_false, forall_eq_or_imp, forall_eq]
      exact ⟨⟨by decide, 0, rfl, by decide⟩, ⟨by decide, 0, rfl, by decide⟩⟩
  refine ⟨[(str "lost", _), (str "unconfirmed", _), (str "valid", _)], rfl, ?_, ?_⟩
  · simp only [Sorted, List.pairwise_cons, List.mem_cons, List.not_mem_nil, or_false,
      forall_eq_or_imp, forall_eq, false_implies, implies_true, List.Pairwise.nil, and_true]
    decide
  · simp only [List.mem_cons, List.not_mem_nil, or_false, forall_eq_or_imp, forall_eq]
    exact ⟨⟨by decide, _, rfl, hsub⟩, ⟨by decide, _, rfl, hsub⟩, ⟨by decide, _, rfl, hsub⟩⟩

def smallEntry : Entry where
  blockNum := 2
  hash := ⟨List.replicate 32 7, rfl⟩
  oldHash := ⟨List.replicate 32 8, rfl⟩
  oldSize := 100
  size := 130
  status := str "110"

def smallWorkload : Workload Unit :=
  { Seal.freshWorkload with
    srdPath2hashs := [(str "/a", []), (str "/b", [List.replicate 32 1, List.replicate 32 2])]
    checkedFiles := [⟨(), smallEntry.json⟩]
    accountId := str "cTHAPPY"
    reportHeight := 600
    upgrade := true }

theorem smallWorkload_wellFormed : WellFormed smallWorkload where
  paths := by
    simp only [smallWorkload, Sorted, List.pairwise_cons, List.mem_cons, List.not_mem_nil, or_false,
      forall_eq, false_implies, implies_true, List.Pairwise.nil, and_true]
    decide
  files := by
    intro f hf
    rw [List.mem_singleton.mp hf]
    exact ⟨smallEntry, ⟨by decide, by decide, by decide, by decide, statusChars (by decide)⟩, rfl⟩
  spec := isSpec_init (τ := Unit) smallWorkload.idKeyPair smallWorkload.prePubKey

def plainMem : Mem := ⟨fun _ _ => 0⟩

def openStore : StoreEnv := ⟨true, .success⟩

def openRestore : RestoreEnv :=
  ⟨true, fun _ _ => true, true, true,
    (.success, some (strip (smallWorkload.wlSpecInfo.dump fun v _ => v)))⟩

theorem stored_is_restored_small :
    ∃ wl', storeThenRestore plainMem (fun v _ => v) (fun _ => ()) openStore openRestore none
        smallWorkload Seal.freshWorkload = some (.success, wl') ∧
      SameMetadata plainMem smallWorkload wl' :=
  have hfresh : Seal.freshWorkload = Workload.init
      ⟨⟨List.replicate 64 0, rfl⟩, ⟨List.replicate 32 0, rfl⟩⟩ ⟨List.replicate 64 0, rfl⟩ := rfl
  stored_is_restored hfresh ⟨by decide, by decide⟩ ⟨by decide, by decide⟩
    smallWorkload_wellFormed (by decide) (by decide) (by decide +kernel) (by decide +kernel)
    ⟨rfl, rfl, fun _ _ _ _ => rfl, rfl⟩

def handedOverWorkload : Workload Unit := { smallWorkload with upgradeStatus := .success }

def taggedWorkload : Workload Unit := { smallWorkload with accountId := hashTag ++ str "00" }

/-- After a hand-over nothing is stored, and an account id with the mark of a hash comes back
as the hex text of a hash. -/
theorem stored_not_restored :
    (NoEscapes handedOverWorkload ∧ WellFormed handedOverWorkload ∧
      ¬ ∃ wl', storeThenRestore plainMem (fun v _ => v) (fun _ => ()) openStore openRestore none
          handedOverWorkload Seal.freshWorkload = some (.success, wl') ∧
        SameMetadata plainMem handedOverWorkload wl') ∧
    (NoEscapes taggedWorkload ∧ WellFormed taggedWorkload ∧
      ¬ ∃ wl', storeThenRestore plainMem (fun v _ => v) (fun _ => ()) openStore openRestore none
          taggedWorkload Seal.freshWorkload = some (.success, wl') ∧
        SameMetadata plainMem taggedWorkload wl') := by
  have hwf := smallWorkload_wellFormed
  refine ⟨⟨⟨by decide, by decide⟩, ⟨hwf.paths, hwf.files, hwf.spec⟩, ?_⟩,
    ⟨⟨by decide, by decide⟩, ⟨hwf.paths, hwf.files, hwf.spec⟩, ?_⟩⟩
  · rintro ⟨wl', hrun, -⟩
    have hstatus : (storeThenRestore plainMem (fun v _ => v) (fun _ => ()) openStore openRestore
        none handedOverWorkload Seal.freshWorkload).map Prod.fst = some .unexpectedError := by
      decide +kernel
    rw [hrun] at hstatus
    cases hstatus
  · rintro ⟨wl', hrun, hsame⟩
    have haccount : (storeThenRestore plainMem (fun v _ => v) (fun _ => ()) openStore openRestore
        none taggedWorkload Seal.freshWorkload).map (fun r => r.2.accountId) =
          some (List.replicate 64 48) := by
      decide +kernel
    rw [hrun, Option.map_some, hsame.account] at haccount
    exact absurd haccount (by decide)

end CrustSworker.Metadata

import CrustSworker.MetadataRoundTrip
import CrustSworker.ReportScan
import CrustSworker.UpgradeData

/-!
# A genuine upgrade

The document of the old enclave in the new one. Both sides take the roots of the same hashes,
but a path without hashes is written and not restored: when such paths are all there is, the
old enclave has hashed nothing and the new one has no map to hash. The main theorem says that
this is the only workload that is not taken over.
-/

namespace CrustSworker.Upgrade

open Metadata JsonParse OrderedMap

variable {τ : Type}

/-! ### What the document says -/

/-- The contents of a document, from which its text is written. -/
structure Handed (τ : Type) where
  key : PubKey
  height : UInt64
  hash : Bytes
  srd : List (Bytes × List Bytes)
  files : List (FileItem τ)
  srdRoot : Hash
  filesRoot : Hash
  sig : Signature

/-- Nothing in it is changed by being written and read. -/
structure Handed.Plain (d : Handed τ) : Prop where
  height : d.height.toNat < 2 ^ 63
  hash : NoEscape d.hash ∧ Untagged d.hash
  sorted : Sorted ltBytes d.srd
  paths : ∀ p ∈ d.srd, NoEscape p.1 ∧ Untagged p.1
  files : ∀ f ∈ d.files, IsEntry f.json

def srdText (mem : Mem) (srd : List (Bytes × List Bytes)) : Bytes :=
  str "\x7b" ++ commaSep (srd.map (srdEntry mem)) ++ str "\x7d"

def filesText (floatText : Bytes → Bytes → Bytes) (files : List (FileItem τ)) : Bytes :=
  str "[" ++ commaSep (files.map fun f => strip (f.json.dump floatText)) ++ str "]"

def hexFieldOf (key b : Bytes) : Field :=
  ⟨key, quoted (hexstringSafe b), .string (hexstringSafe b)⟩

def Handed.fields (mem : Mem) (floatText : Bytes → Bytes → Bytes) (d : Handed τ) : List Field :=
  [hexFieldOf upgradePublicKey d.key.val,
    ⟨upgradeBlockHeight, decInt d.height.toNat, .integral d.height.toNat⟩,
    ⟨upgradeBlockHash, quoted d.hash, .string d.hash⟩,
    ⟨upgradeSrd, srdText mem d.srd, srdValue mem d.srd⟩,
    ⟨upgradeFile, filesText floatText d.files, .array (d.files.map FileItem.json)⟩,
    hexFieldOf upgradeSrdRoot d.srdRoot.val,
    hexFieldOf upgradeFileRoot d.filesRoot.val,
    hexFieldOf upgradeSig d.sig.val]

def Handed.text (mem : Mem) (floatText : Bytes → Bytes → Bytes) (d : Handed τ) : Bytes :=
  upgradeText d.key d.height d.hash (srdText mem d.srd) (filesText floatText d.files) d.srdRoot
    d.filesRoot d.sig

def Handed.doc (mem : Mem) (floatText : Bytes → Bytes → Bytes) (d : Handed τ) : JSON :=
  documentOf (d.fields mem floatText)

section
variable (mem : Mem) (floatText : Bytes → Bytes → Bytes)

theorem Handed.text_eq (d : Handed τ) :
    d.text mem floatText = documentText (d.fields mem floatText) := by
  have h₁ : str "\x7b\"" = str "\x7b" ++ str "\"" := by decide
  have h₂ : str "\":" = str "\"" ++ str ":" := by decide
  have h₃ : str ",\"" = str "," ++ str "\"" := by decide
  have h₄ : str "\"\x7d" = str "\"" ++ str "\x7d" := by decide
  have hheight : decInt (d.height.toNat : Int) = decNat d.height.toNat := by
    simp [decInt]
  have hcons : ∀ (x y : Bytes) (xs : List Bytes),
      commaSep (x :: y :: xs) = x ++ (str "," ++ commaSep (y :: xs)) := fun x y xs => by
    rw [commaSep_cons]
    rfl
  have hone : ∀ x : Bytes, commaSep [x] = x := fun _ => rfl
  unfold Handed.text upgradeText documentText Handed.fields hexFieldOf
  simp only [List.map_cons, List.map_nil, hcons, hone, member, quoted, hheight, h₁, h₂, h₃, h₄,
    List.append_assoc]

theorem Handed.reads {d : Handed τ} (h : d.Plain) (loader : Loader) :
    Reads loader mem (d.text mem floatText) (d.doc mem floatText) := by
  have hstring : ∀ s : Bytes, NoEscape s → Untagged s →
      Token loader mem (quoted s) (.string s) := by
    intro s hs hu
    rw [← stringValue_untagged mem hu]
    exact token_quoted hs
  have hhex : ∀ b : Bytes, Token loader mem (quoted (hexstringSafe b)) (.string (hexstringSafe b)) :=
    fun b => hstring _ (noEscape_hexstringSafe b) (untagged_hexstringSafe b)
  have hlong : IsLong (d.height.toNat : Int) := by
    have := h.height
    exact ⟨by omega, by omega⟩
  rw [Handed.text_eq]
  refine reads_document ?_ ?_
  · rw [show (d.fields mem floatText).map Field.key = [upgradePublicKey, upgradeBlockHeight,
      upgradeBlockHash, upgradeSrd, upgradeFile, upgradeSrdRoot, upgradeFileRoot, upgradeSig] from
      rfl]
    decide
  · simp only [Handed.fields, hexFieldOf, List.mem_cons, List.not_mem_nil, or_false,
      forall_eq_or_imp, forall_eq]
    exact ⟨hhex _, token_decInt hlong.1 hlong.2, hstring _ h.hash.1 h.hash.2,
      token_srd h.sorted (fun p hp => (h.paths p hp).1) (fun p hp => (h.paths p hp).2),
      token_files floatText h.files, hhex _, hhex _, hhex _⟩

theorem Handed.get {d : Handed τ} {f : Field} (hf : f ∈ d.fields mem floatText) :
    (d.doc mem floatText).get f.key = f.value := by
  refine documentOf_get ?_ hf
  rw [show (d.fields mem floatText).map Field.key = [upgradePublicKey, upgradeBlockHeight,
    upgradeBlockHash, upgradeSrd, upgradeFile, upgradeSrdRoot, upgradeFileRoot, upgradeSig] from
    rfl]
  decide

theorem Handed.hexText {d : Handed τ} {k b : Bytes} (hf : hexFieldOf k b ∈ d.fields mem floatText) :
    ((d.doc mem floatText).get k).toStr = hexstringSafe b := by
  have hget := Handed.get mem floatText hf
  simp only [hexFieldOf] at hget
  rw [hget, JSON.toStr, jsonEscape_of_noEscape (noEscape_hexstringSafe b)]

theorem Handed.heightText_eq (d : Handed τ) :
    heightText (d.doc mem floatText) = decNat d.height.toNat := by
  have hget := Handed.get mem floatText (d := d)
    (f := ⟨upgradeBlockHeight, decInt d.height.toNat, .integral d.height.toNat⟩)
    (by simp [Handed.fields])
  dsimp only at hget
  rw [heightText, hget, JSON.toStr]
  simp [decInt]

theorem Handed.hashText_eq {d : Handed τ} (h : NoEscape d.hash) :
    hashText (d.doc mem floatText) = d.hash := by
  have hget := Handed.get mem floatText (d := d)
    (f := ⟨upgradeBlockHash, quoted d.hash, .string d.hash⟩) (by simp [Handed.fields])
  dsimp only at hget
  rw [hashText, hget, JSON.toStr, jsonEscape_of_noEscape h]

end

/-! ### The roots on both sides -/

theorem read_gHashAt (mem : Mem) (g : Bytes) : mem.read (gHashAt mem g) 32 = mem.read g 32 :=
  mem.read_full (mem.read g 32)

theorem srdHashs_stored (mem : Mem) (m : List (Bytes × List Bytes)) :
    Workload.srdHashs mem (storedSrd mem m) = Workload.srdHashs mem m := by
  induction m with
  | nil => rfl
  | cons p m ih =>
    have hcons : storedSrd mem (p :: m) = storedSrd mem [p] ++ storedSrd mem m := by
      unfold storedSrd
      rw [← List.map_append, ← List.filter_append]
      rfl
    have hone : Workload.srdHashs mem (storedSrd mem [p]) =
        p.2.map fun g => mem.read g 32 := by
      obtain ⟨path, gs⟩ := p
      cases gs with
      | nil => rfl
      | cons g gs => simp [storedSrd, Workload.srdHashs, read_gHashAt, Function.comp_def]
    rw [hcons]
    simp only [Workload.srdHashs, List.flatMap_append, List.flatMap_cons] at hone ih ⊢
    rw [hone, ih]

theorem storedSrd_eq_nil_iff (mem : Mem) (m : List (Bytes × List Bytes)) :
    storedSrd mem m = [] ↔ ∀ p ∈ m, p.2 = [] := by
  simp [storedSrd, List.filter_eq_nil_iff]

theorem fileHashs_congr {fs gs : List (FileItem τ)}
    (h : fs.map FileItem.json = gs.map FileItem.json) :
    Workload.fileHashs fs = Workload.fileHashs gs := by
  induction fs generalizing gs with
  | nil =>
    cases gs with
    | nil => rfl
    | cons g gs => simp at h
  | cons f fs ih =>
    cases gs with
    | nil => simp at h
    | cons g gs =>
      simp only [List.map_cons, List.cons.injEq] at h
      rw [Workload.fileHashs, Workload.fileHashs, h.1, ih h.2]

section
variable {sha256 : Bytes → Hash} {mem : Mem}

theorem genWorkloadInfo_bounds {wl : Workload τ} {allocSrd allocFiles : Bool} {roots : Hash × Hash}
    (h : wl.genWorkloadInfo sha256 mem allocSrd allocFiles = some roots) :
    (Workload.srdHashs mem wl.srdPath2hashs).length * hashLength ≤ heapMaxSize ∧
      wl.checkedFiles.length * hashLength ≤ heapMaxSize := by
  unfold Workload.genWorkloadInfo at h
  dsimp only at h
  split at h
  · cases h
  rename_i hs hhs
  have hlen := Workload.length_fileHashs hhs
  split at h
  · cases h
  rename_i hsrd
  split at h
  · cases h
  rename_i hfiles
  constructor
  · by_cases hm : wl.srdPath2hashs = []
    · rw [hm]
      exact Nat.zero_le _
    · exact encMalloc_le (by_contra fun ha => hsrd ⟨hm, ha⟩)
  · by_cases hn : wl.checkedFiles.length = 0
    · rw [hn, Nat.zero_mul]
      exact Nat.zero_le _
    · rw [← hlen]
      exact encMalloc_le (by_contra fun ha => hfiles ⟨hn, ha⟩)

theorem genWorkloadInfo_of_bounds {wl : Workload τ} {hs : List Hash}
    (hhs : Workload.fileHashs wl.checkedFiles = some hs)
    (hsrd : (Workload.srdHashs mem wl.srdPath2hashs).length * hashLength ≤ heapMaxSize)
    (hfiles : wl.checkedFiles.length * hashLength ≤ heapMaxSize) :
    wl.genWorkloadInfo sha256 mem true true =
      some (rootHash sha256 wl.srdPath2hashs.isEmpty (Workload.srdHashs mem wl.srdPath2hashs),
        rootHash sha256 hs.isEmpty hs) := by
  have hlen := Workload.length_fileHashs hhs
  have hsome : ∃ roots, wl.genWorkloadInfo sha256 mem true true = some roots := by
    unfold Workload.genWorkloadInfo
    rw [hhs]
    dsimp only
    rw [if_neg (by simp [encMalloc, hsrd]), if_neg (by simp [encMalloc, hlen, hfiles])]
    exact ⟨_, rfl⟩
  obtain ⟨⟨srdRoot, filesRoot⟩, hroots⟩ := hsome
  obtain ⟨hs', hhs', rfl, rfl⟩ := genWorkloadInfo_roots hroots
  obtain rfl : hs = hs' := Option.some.inj (hhs.symm.trans hhs')
  exact hroots

end

/-! ### The checks of the new enclave -/

structure CheckOk (srd : List (Bytes × List Bytes)) (env : UpgradeEnv) : Prop where
  mallocKey : env.mallocKey = true
  mallocHash : Workload.HashBuffers env.mallocHash srd
  allocSrd : env.allocSrd = true
  allocFiles : env.allocFiles = true
  mallocSigbuf : env.mallocSigbuf = true
  openContext : env.openContext = true
  mallocSig : env.mallocSig = true

def Handed.restored (mem : Mem) (tagOf : Nat → τ) (wl : Workload τ) (d : Handed τ) : Workload τ :=
  { wl with
    srdPath2hashs := storedSrd mem d.srd
    srdInfoJson := Workload.assignSrdInfo wl.srdInfoJson (storedSrd mem d.srd)
    checkedFiles := (d.files.map FileItem.json).zipIdx.map fun p => ⟨tagOf p.2, p.1⟩
    wlSpecInfo := recount wl.wlSpecInfo (d.files.map FileItem.json) }

def Handed.newRoots (sha256 : Bytes → Hash) (mem : Mem) (d : Handed τ) (hs : List Hash) :
    Hash × Hash :=
  (rootHash sha256 (storedSrd mem d.srd).isEmpty (Workload.srdHashs mem d.srd),
    rootHash sha256 hs.isEmpty hs)

def Handed.verdict (verify : Verify) (d : Handed τ) (roots : Hash × Hash) : Verdict :=
  if ¬ verify d.key (signedBuffer d.key d.height d.hash roots.1 roots.2) d.sig then
    .refused .sgxVerifySigFailed
  else if roots.1 ≠ d.srdRoot then .refused .upgradeBadSrd
  else if roots.2 ≠ d.filesRoot then .refused .upgradeBadFile
  else .verified d.key

theorem hexstringSafe_injective {a b : Bytes} (h : hexstringSafe a = hexstringSafe b) : a = b := by
  rw [← hexPairs_hexstringSafe a, h, hexPairs_hexstringSafe]

theorem length_signedBuffer (key : PubKey) (height : UInt64) (hash : Bytes)
    (srdRoot filesRoot : Hash) :
    (signedBuffer key height hash srdRoot filesRoot).length =
      64 + (decNat height.toNat).length + hash.length + 32 + 32 := by
  simp only [signedBuffer, List.length_append, key.property, srdRoot.property, filesRoot.property]

section
variable {sha256 : Bytes → Hash} {mem : Mem} {floatText : Bytes → Bytes → Bytes} {verify : Verify}
  {tagOf : Nat → τ} {d : Handed τ} {env : UpgradeEnv}

theorem Handed.restored_files (mem : Mem) (tagOf : Nat → τ) (wl : Workload τ) (d : Handed τ) :
    (d.restored mem tagOf wl).checkedFiles.map FileItem.json = d.files.map FileItem.json := by
  simp only [Handed.restored, List.map_map]
  exact List.zipIdx_map_fst 0 _

theorem Handed.restoreWorkload_eq (hs : Sorted ltBytes d.srd)
    (hbuf : Workload.HashBuffers env.mallocHash d.srd) (wl : Workload τ) :
    restoreWorkload env tagOf wl (d.doc mem floatText) = (true, d.restored mem tagOf wl) := by
  have hsrd := Handed.get mem floatText (d := d)
    (f := ⟨upgradeSrd, srdText mem d.srd, srdValue mem d.srd⟩) (by simp [Handed.fields])
  have hfiles := Handed.get mem floatText (d := d)
    (f := ⟨upgradeFile, filesText floatText d.files, .array (d.files.map FileItem.json)⟩)
    (by simp [Handed.fields])
  dsimp only at hsrd hfiles
  rw [restoreWorkload, hsrd, hfiles, Workload.restoreSrd, restorePaths_stored hs hbuf]
  dsimp only
  rw [restoreFile_eq]
  rfl

theorem Handed.restoreWorkload_done (hs : Sorted ltBytes d.srd) {wl wl' : Workload τ}
    (h : restoreWorkload env tagOf wl (d.doc mem floatText) = (true, wl')) :
    wl' = d.restored mem tagOf wl := by
  have hsrd := Handed.get mem floatText (d := d)
    (f := ⟨upgradeSrd, srdText mem d.srd, srdValue mem d.srd⟩) (by simp [Handed.fields])
  have hfiles := Handed.get mem floatText (d := d)
    (f := ⟨upgradeFile, filesText floatText d.files, .array (d.files.map FileItem.json)⟩)
    (by simp [Handed.fields])
  dsimp only at hsrd hfiles
  rw [restoreWorkload, hsrd, hfiles, Workload.restoreSrd] at h
  by_cases hdec : Workload.Decodable env.mallocHash (srdValue mem d.srd).objectRange
  · rw [Workload.restorePaths_eq_some hdec, statedHashs_stored hs] at h
    dsimp only at h
    rw [restoreFile_eq, Prod.mk.injEq] at h
    exact h.2.symm
  · rw [Workload.restorePaths_eq_none hdec] at h
    cases h

theorem Handed.pubKeyOf_eq (he : env.mallocKey = true) :
    pubKeyOf mem env (d.doc mem floatText) = some d.key := by
  have htext := Handed.hexText mem floatText (d := d) (k := upgradePublicKey) (b := d.key.val)
    (by simp [Handed.fields])
  rw [pubKeyOf, htext, hexStringToBytes_hexstringSafe (byteArr_ne_nil d.key (by decide))]
  dsimp only
  rw [if_pos he, mem.read_full d.key]

theorem Handed.signatureOf_eq (he : env.mallocSig = true) :
    signatureOf mem env (d.doc mem floatText) = some d.sig := by
  have htext := Handed.hexText mem floatText (d := d) (k := upgradeSig) (b := d.sig.val)
    (by simp [Handed.fields])
  rw [signatureOf, htext, hexStringToBytes_hexstringSafe (byteArr_ne_nil d.sig (by decide))]
  dsimp only
  rw [if_pos he, mem.read_full d.sig]

theorem Handed.sigbuf_eq (h : NoEscape d.hash) (srdRoot filesRoot : Hash) :
    sigbuf d.key (d.doc mem floatText) srdRoot filesRoot =
      signedBuffer d.key d.height d.hash srdRoot filesRoot := by
  rw [sigbuf, Handed.heightText_eq, Handed.hashText_eq mem floatText h, signedBuffer]

theorem Handed.newInfo (he : CheckOk d.srd env) {hs : List Hash}
    (hhs : Workload.fileHashs d.files = some hs)
    (hsrd : (Workload.srdHashs mem d.srd).length * hashLength ≤ heapMaxSize)
    (hfiles : d.files.length * hashLength ≤ heapMaxSize) (wl : Workload τ) :
    (d.restored mem tagOf wl).genWorkloadInfo sha256 mem env.allocSrd env.allocFiles =
      some (d.newRoots sha256 mem hs) := by
  have hjson := Handed.restored_files mem tagOf wl d
  have hlen := congrArg List.length hjson
  rw [List.length_map, List.length_map] at hlen
  have hbound : (Workload.srdHashs mem (d.restored mem tagOf wl).srdPath2hashs).length *
      hashLength ≤ heapMaxSize := by
    simp only [Handed.restored, srdHashs_stored]
    exact hsrd
  rw [he.allocSrd, he.allocFiles, genWorkloadInfo_of_bounds
    ((fileHashs_congr hjson).trans hhs) hbound (by rw [hlen]; exact hfiles)]
  simp only [Handed.newRoots, Handed.restored, srdHashs_stored]

theorem Handed.checkDocument_eq (hd : d.Plain) (he : CheckOk d.srd env) {hs : List Hash}
    (hhs : Workload.fileHashs d.files = some hs)
    (hsrd : (Workload.srdHashs mem d.srd).length * hashLength ≤ heapMaxSize)
    (hfiles : d.files.length * hashLength ≤ heapMaxSize)
    (hbuf : (signedBuffer d.key d.height d.hash zeroHash zeroHash).length ≤ heapMaxSize)
    (wl : Workload τ) :
    checkDocument sha256 mem verify env tagOf wl (d.doc mem floatText) =
      some (d.verdict verify (d.newRoots sha256 mem hs), d.restored mem tagOf wl) := by
  have hroot : ∀ {k : Bytes} {r : Hash}, hexFieldOf k r.val ∈ d.fields mem floatText → ∀ r' : Hash,
      (hexstringSafe r'.val ≠ ((d.doc mem floatText).get k).toStr ↔ r' ≠ r) := by
    intro k r hf r'
    rw [Handed.hexText mem floatText hf]
    exact not_congr ⟨fun h => Subtype.ext (hexstringSafe_injective h), fun h => by rw [h]⟩
  have hsrdRoot := hroot (k := upgradeSrdRoot) (r := d.srdRoot) (by simp [Handed.fields])
    (d.newRoots sha256 mem hs).1
  have hfilesRoot := hroot (k := upgradeFileRoot) (r := d.filesRoot) (by simp [Handed.fields])
    (d.newRoots sha256 mem hs).2
  have hlen : (signedBuffer d.key d.height d.hash (d.newRoots sha256 mem hs).1
      (d.newRoots sha256 mem hs).2).length ≤ heapMaxSize := by
    rwa [length_signedBuffer, ← length_signedBuffer d.key d.height d.hash zeroHash zeroHash]
  rw [checkDocument, Handed.pubKeyOf_eq he.mallocKey,
    Handed.restoreWorkload_eq hd.sorted he.mallocHash]
  dsimp only
  rw [verifyWorkload, Handed.newInfo he hhs hsrd hfiles]
  dsimp only
  rw [Handed.sigbuf_eq hd.hash.1, if_neg (by simp [encMalloc, he.mallocSigbuf, hlen]),
    if_neg (by simp [he.openContext]), Handed.signatureOf_eq he.mallocSig]
  simp only [hsrdRoot, hfilesRoot, Handed.verdict]
  split_ifs <;> rfl

end

/-! ### What the old enclave hands over -/

section
variable {sha256 : Bytes → Hash} {mem : Mem} {floatText : Bytes → Bytes → Bytes}
  {usable : Nat → Nat} {env : GenDataEnv} {wl wl' : Workload τ} {blockHeight : UInt64}

theorem genLastReport_ok {last : LastReport τ}
    (h : genLastReport sha256 mem env wl blockHeight = some (.ok last, wl')) :
    reportTarget env wl blockHeight = .ok (last.height, last.hash) ∧
      Report.genWorkReport sha256 mem env.report wl last.hash last.height false =
        some (.success, wl', some (last.report, last.sig)) := by
  unfold genLastReport at h
  split at h
  · cases h
  rename_i height hash htarget
  split at h
  · cases h
  · rename_i r sig hr
    cases h
    exact ⟨htarget, hr⟩
  · cases h

theorem signUpgrade_success {d : Serialized} {data : Bytes}
    (h : signUpgrade sha256 mem env wl d = some (.success, wl', some data)) :
    ∃ roots sig, wl.genWorkloadInfo sha256 mem env.allocSrd env.allocFiles = some roots ∧
      (signedBuffer wl.idKeyPair.pubKey d.height d.hash roots.1 roots.2).length ≤ heapMaxSize ∧
      env.sign wl.idKeyPair.priKey
        (signedBuffer wl.idKeyPair.pubKey d.height d.hash roots.1 roots.2) = some sig ∧
      data = upgradeText wl.idKeyPair.pubKey d.height d.hash d.srd d.files roots.1 roots.2 sig ∧
      wl' = { wl with upgradeStatus := .success } := by
  unfold signUpgrade at h
  split at h
  · cases h
  rename_i srdRoot filesRoot hroots
  dsimp only at h
  split_ifs at h with hctx hm
  · split at h
    · cases h
    rename_i sig hsig
    split_ifs at h with hb
    · simp only [Option.some.injEq, Prod.mk.injEq, true_and] at h
      exact ⟨(srdRoot, filesRoot), sig, hroots, encMalloc_le hm, hsig, h.2.symm, h.1.symm⟩
    · simp at h
  · simp at h
  · simp at h

theorem serializeFile_success {malloc : Bool} {files : Bytes}
    (h : serializeFile floatText usable malloc wl = some (.success, files)) :
    files = filesText floatText wl.checkedFiles := by
  unfold serializeFile at h
  split_ifs at h
  · dsimp only at h
    split_ifs at h
    simp only [Option.some.injEq, Prod.mk.injEq, true_and] at h
    exact h.symm
  · cases h

theorem idGenUpgradeData_success {data : Bytes}
    (h : idGenUpgradeData sha256 mem floatText usable env wl blockHeight =
      some (.success, wl', some data)) :
    ∃ last wl₁, genLastReport sha256 mem env wl blockHeight = some (.ok last, wl₁) ∧
      signUpgrade sha256 mem env wl₁.handleReportResult
        ⟨last.height, last.hash, srdText mem wl₁.srdPath2hashs,
          filesText floatText wl₁.handleReportResult.checkedFiles⟩ =
        some (.success, wl', some data) := by
  unfold idGenUpgradeData at h
  split at h
  · cases h
  · cases h
  rename_i last wl₁ hlast
  refine ⟨last, wl₁, hlast, ?_⟩
  unfold uploadLastReport at h
  split_ifs at h with hup
  · dsimp only at h
    unfold serializeUpgrade at h
    dsimp only at h
    split at h
    · cases h
    · rename_i files hfiles
      rw [serializeFile_success hfiles] at h
      exact h
    · simp only [Option.some.injEq, Prod.mk.injEq] at h
      exact absurd h.2.2 (by simp)
  · simp at h

/-! ### Entries stay entries -/

theorem isEntry_modify {fs : List (FileItem τ)} (h : ∀ f ∈ fs, IsEntry f.json) (i : Nat)
    {g : FileItem τ → FileItem τ} (hg : ∀ f, IsEntry f.json → IsEntry (g f).json) :
    ∀ f ∈ fs.modify i g, IsEntry f.json := by
  induction fs generalizing i with
  | nil => simp
  | cons e fs ih =>
    cases i with
    | zero =>
      intro f hf
      rw [List.modify_zero_cons] at hf
      rcases List.mem_cons.mp hf with rfl | hf
      · exact hg e (h e List.mem_cons_self)
      · exact h f (List.mem_cons_of_mem _ hf)
    | succ i =>
      intro f hf
      rw [List.modify_succ_cons] at hf
      rcases List.mem_cons.mp hf with rfl | hf
      · exact h f List.mem_cons_self
      · exact ih (fun f hf => h f (List.mem_cons_of_mem _ hf)) i f hf

theorem isEntry_markWaiting {f : FileItem τ} (h : IsEntry f.json) :
    IsEntry (Report.markWaiting f).json :=
  h.setStatusChar (by decide) (h.statusChar (by decide))

theorem isEntry_acked (idxs : List Nat) {fs : List (FileItem τ)} (h : ∀ f ∈ fs, IsEntry f.json) :
    ∀ f ∈ idxs.foldl Workload.ackFile fs, IsEntry f.json := by
  induction idxs generalizing fs with
  | nil => exact h
  | cons i idxs ih =>
    refine ih (isEntry_modify h i fun f hf => ?_)
    exact hf.setStatusChar (by decide) (hf.statusChar (by decide))

theorem scanned_items {files : List (FileItem τ)} (h : ∀ f ∈ files, f.HasStatus) :
    (Report.scanFiles false files).items = files.map Report.markWaiting := by
  rw [Report.scanFiles_eq h]
  exact Report.rowsFrom_items 0 files

theorem genWorkReport_signed {renv : ReportEnv} {hash : Bytes} {height : UInt64} {upgrading : Bool}
    {r : WorkReport τ} {sig : Signature}
    (h : Report.genWorkReport sha256 mem renv wl hash height upgrading =
      some (.success, wl', some (r, sig))) :
    Report.Outcome sha256 mem wl hash height upgrading (.success, wl', some (r, sig)) := by
  refine Report.genWorkReport_outcome ?_ h
  by_contra hexp
  rw [Report.genWorkReport, if_pos (by simpa using hexp)] at h
  cases h

theorem genLastReport_lists {last : LastReport τ} (hfiles : ∀ f ∈ wl.checkedFiles, IsEntry f.json)
    (h : genLastReport sha256 mem env wl blockHeight = some (.ok last, wl')) :
    wl'.srdPath2hashs = wl.srdPath2hashs ∧ wl'.idKeyPair = wl.idKeyPair ∧
      (∀ f ∈ wl'.checkedFiles, IsEntry f.json) := by
  have hwl := ((genWorkReport_signed (genLastReport_ok h).2).report _ _ rfl).1
  dsimp only at hwl
  subst hwl
  refine ⟨rfl, rfl, ?_⟩
  have hkept : ∀ f ∈ Report.eraseGone wl.checkedFiles, IsEntry f.json :=
    fun f hf => hfiles f (List.mem_of_mem_filter hf)
  have hitems := scanned_items fun f hf => (hkept f hf).hasStatus
  intro f hf
  simp only [Report.settleReport, Workload.reportReduceValidatedProof, Report.afterScan, hitems]
    at hf
  obtain ⟨e, he, rfl⟩ := List.mem_map.mp hf
  exact isEntry_markWaiting (hkept e he)

end

/-! ### Acceptance -/

section
variable (sha256 : Bytes → Hash) (mem : Mem) (verify : Verify) (tagOf : Nat → τ)

/-- The last call has the new enclave hold what the old one, now `wl`, has handed over, over
the same roots and the same signed buffer, and goes on to enter the network. -/
def TakenOver (env : GenDataEnv) (wl : Workload τ) (height : UInt64) (hash : Bytes) (s : State τ)
    (c : Call) : Prop :=
  ∃ doc wl' roots, Loads mem s c doc ∧
    checkDocument sha256 mem verify c.env tagOf s.wl doc =
      some (.verified wl.idKeyPair.pubKey, wl') ∧
    wl'.srdPath2hashs = storedSrd mem wl.srdPath2hashs ∧
    wl'.checkedFiles.map FileItem.json = wl.checkedFiles.map FileItem.json ∧
    wl.genWorkloadInfo sha256 mem env.allocSrd env.allocFiles = some roots ∧
    wl'.genWorkloadInfo sha256 mem c.env.allocSrd c.env.allocFiles = some roots ∧
    sigbuf wl.idKeyPair.pubKey doc roots.1 roots.2 =
      signedBuffer wl.idKeyPair.pubKey height hash roots.1 roots.2 ∧
    (idRestoreFromUpgrade sha256 mem verify tagOf s c).map (fun r => (r.1.status, r.2.wl)) =
      enterNetwork sha256 mem c.env wl' doc wl.idKeyPair.pubKey

end

/-- The map is empty, or a path of it has a hash. -/
def SrdHeld (srd : List (Bytes × List Bytes)) : Prop := srd = [] ∨ ∃ p ∈ srd, p.2 ≠ []

theorem newRoot_eq_iff {sha256 : Bytes → Hash} (mem : Mem) (hsha : sha256 [] ≠ zeroHash)
    (srd : List (Bytes × List Bytes)) :
    rootHash sha256 (storedSrd mem srd).isEmpty (Workload.srdHashs mem srd) =
        rootHash sha256 srd.isEmpty (Workload.srdHashs mem srd) ↔ SrdHeld srd := by
  by_cases hnil : srd = []
  · subst hnil
    exact ⟨fun _ => .inl rfl, fun _ => rfl⟩
  by_cases hall : ∀ p ∈ srd, p.2 = []
  · have hstored := (storedSrd_eq_nil_iff mem srd).mpr hall
    have hhashes : Workload.srdHashs mem srd = [] := by
      rw [← srdHashs_stored, hstored]
      rfl
    have hempty : srd.isEmpty = false := by simpa using hnil
    rw [hstored, hhashes, hempty]
    refine ⟨fun h => absurd h.symm hsha, ?_⟩
    rintro (h | ⟨p, hp, hne⟩)
    · exact absurd h hnil
    · exact absurd (hall p hp) hne
  · have hstored : (storedSrd mem srd).isEmpty = false := by
      simpa using mt (storedSrd_eq_nil_iff mem srd).mp hall
    have hempty : srd.isEmpty = false := by simpa using hnil
    rw [hstored, hempty]
    refine ⟨fun _ => .inr ?_, fun _ => rfl⟩
    simpa using hall

section
variable {sha256 : Bytes → Hash} {mem : Mem} {floatText : Bytes → Bytes → Bytes} {verify : Verify}
  {usable : Nat → Nat} {env : GenDataEnv} {tagOf : Nat → τ} {wl wl' : Workload τ}
  {blockHeight : UInt64} {data : Bytes} {s : State τ} {c : Call}

theorem Handed.loads {d : Handed τ} (hd : d.Plain)
    (hdata : s.received ++ c.data = d.text mem floatText) : Loads mem s c (d.doc mem floatText) := by
  have hpos : (d.text mem floatText).length ≠ 0 := by
    rw [Handed.text_eq]
    simp [documentText, str]
  rw [Loads, hdata, contents]
  exact loadBuffer_of_reads (Handed.reads mem floatText hd .buffer) _ hpos

theorem restore_of_verified {doc : JSON} {key : PubKey} (hload : Loads mem s c doc)
    (hlast : c.transferEnd = true) (hbuf : encMalloc c.mallocBuffer c.totalSize = true)
    (hcheck : checkDocument sha256 mem verify c.env tagOf s.wl doc = some (.verified key, wl')) :
    (idRestoreFromUpgrade sha256 mem verify tagOf s c).map (fun r => (r.1.status, r.2.wl)) =
      enterNetwork sha256 mem c.env wl' doc key := by
  rw [Loads] at hload
  rw [idRestoreFromUpgrade, if_neg (by simp [hbuf])]
  dsimp only
  rw [if_neg (by simp [hlast]), hload]
  dsimp only
  rw [restoreDocument, hcheck]
  dsimp only
  cases enterNetwork sha256 mem c.env wl' doc key with
  | none => rfl
  | some r => rfl

/-- What an undisturbed hand-over leaves behind: the workload `wl` of the old enclave
afterwards and the contents `d` of its document. -/
structure GivenOut (sha256 : Bytes → Hash) (mem : Mem) (verify : Verify) (env : GenDataEnv)
    (wl : Workload τ) (d : Handed τ) : Prop where
  plain : d.Plain
  key : d.key = wl.idKeyPair.pubKey
  srd : d.srd = wl.srdPath2hashs
  files : d.files = wl.checkedFiles
  roots : wl.genWorkloadInfo sha256 mem env.allocSrd env.allocFiles = some (d.srdRoot, d.filesRoot)
  buffer : (signedBuffer d.key d.height d.hash zeroHash zeroHash).length ≤ heapMaxSize
  verified : verify d.key (signedBuffer d.key d.height d.hash d.srdRoot d.filesRoot) d.sig = true

theorem idGenUpgradeData_givenOut
    (hgen : idGenUpgradeData sha256 mem floatText usable env wl blockHeight =
      some (.success, wl', some data))
    (hsorted : Sorted ltBytes wl.srdPath2hashs)
    (hpaths : ∀ p ∈ wl.srdPath2hashs, NoEscape p.1 ∧ Untagged p.1)
    (hfiles : ∀ f ∈ wl.checkedFiles, IsEntry f.json) (hheight : blockHeight.toNat < 2 ^ 63)
    (hhash : ∀ h, NoEscape (env.blockHash h).2.val ∧ Untagged (env.blockHash h).2.val)
    (hsign : ∀ m sig, env.sign wl.idKeyPair.priKey m = some sig →
      verify wl.idKeyPair.pubKey m sig = true) :
    ∃ d : Handed τ, GivenOut sha256 mem verify env wl' d ∧ data = d.text mem floatText ∧
      reportTarget env wl blockHeight = .ok (d.height, d.hash) ∧
      wl'.srdPath2hashs = wl.srdPath2hashs := by
  obtain ⟨last, wl₁, hreport, hsigned⟩ := idGenUpgradeData_success hgen
  obtain ⟨hsrd, hkey, hentries⟩ := genLastReport_lists hfiles hreport
  have htarget := (genLastReport_ok hreport).1
  obtain ⟨hle, b, hb, hhashEq⟩ := reportTarget_ok htarget
  obtain ⟨roots, sig, hroots, hbuflen, hsig, hdoc, rfl⟩ := signUpgrade_success hsigned
  -- What the document says: the lists after the report was acknowledged.
  refine ⟨⟨wl₁.idKeyPair.pubKey, last.height, last.hash, wl₁.srdPath2hashs,
    wl₁.handleReportResult.checkedFiles, roots.1, roots.2, sig⟩,
    ⟨⟨?_, ?_, ?_, ?_, isEntry_acked _ hentries⟩, rfl, rfl, rfl, hroots, ?_, ?_⟩, hdoc, htarget,
    hsrd⟩
  · rw [UInt64.le_iff_toNat_le] at hle
    exact lt_of_le_of_lt hle hheight
  · have h := hhash last.height
    rw [hb] at h
    rw [hhashEq]
    exact h
  · rw [hsrd]
    exact hsorted
  · rw [hsrd]
    exact hpaths
  · rw [length_signedBuffer] at hbuflen ⊢
    exact hbuflen
  · have hkey' : wl₁.handleReportResult.idKeyPair = wl.idKeyPair := hkey
    rw [hkey'] at hsig
    dsimp only
    rw [hkey]
    exact hsign _ _ hsig

theorem GivenOut.taken_over_iff {d : Handed τ} (h : GivenOut sha256 mem verify env wl d)
    (hsha : sha256 [] ≠ zeroHash) (hdata : s.received ++ c.data = d.text mem floatText)
    (hlast : c.transferEnd = true) (hbuf : encMalloc c.mallocBuffer c.totalSize = true)
    (hcheck : CheckOk wl.srdPath2hashs c.env) :
    TakenOver sha256 mem verify tagOf env wl d.height d.hash s c ↔ SrdHeld wl.srdPath2hashs := by
  obtain ⟨hs, hhs, hsrdRoot, hfilesRoot⟩ := genWorkloadInfo_roots h.roots
  obtain ⟨hsrdLen, hfilesLen⟩ := genWorkloadInfo_bounds h.roots
  rw [← h.srd] at hsrdLen hsrdRoot
  rw [← h.files] at hfilesLen hhs
  have hload := Handed.loads (s := s) (c := c) h.plain hdata
  have hcheck' : CheckOk d.srd c.env := by
    rw [h.srd]
    exact hcheck
  have hchecked : checkDocument sha256 mem verify c.env tagOf s.wl (d.doc mem floatText) =
      some (d.verdict verify (d.newRoots sha256 mem hs), d.restored mem tagOf s.wl) :=
    Handed.checkDocument_eq h.plain hcheck' hhs hsrdLen hfilesLen h.buffer s.wl
  have hnew : (d.newRoots sha256 mem hs).1 = d.srdRoot ↔ SrdHeld wl.srdPath2hashs := by
    rw [hsrdRoot, ← h.srd]
    exact newRoot_eq_iff mem hsha d.srd
  constructor
  · rintro ⟨doc, wl₂, roots', hload', hver, -⟩
    obtain rfl : d.doc mem floatText = doc := by
      rw [Loads] at hload hload'
      exact Except.ok.inj (hload.symm.trans hload')
    rw [hchecked, Option.some.injEq, Prod.mk.injEq] at hver
    refine hnew.mp (by_contra fun hne => ?_)
    have hv := hver.1
    rw [Handed.verdict, if_pos hne] at hv
    split_ifs at hv
  · intro hheld
    have hpair : d.newRoots sha256 mem hs = (d.srdRoot, d.filesRoot) :=
      Prod.ext (hnew.mpr hheld) hfilesRoot.symm
    have hverdict : d.verdict verify (d.newRoots sha256 mem hs) = .verified wl.idKeyPair.pubKey := by
      rw [hpair, Handed.verdict, if_neg (not_not.mpr h.verified), if_neg (not_not.mpr rfl),
        if_neg (not_not.mpr rfl), h.key]
    rw [hverdict] at hchecked
    refine ⟨d.doc mem floatText, d.restored mem tagOf s.wl, (d.srdRoot, d.filesRoot),
      hload, hchecked, ?_, ?_, h.roots, ?_, ?_, restore_of_verified hload hlast hbuf hchecked⟩
    · rw [← h.srd]
      rfl
    · rw [← h.files]
      exact Handed.restored_files mem tagOf s.wl d
    · rw [Handed.newInfo hcheck' hhs hsrdLen hfilesLen, hpair]
    · rw [← h.key]
      exact Handed.sigbuf_eq h.plain.hash.1 _ _

/-- A document that an undisturbed hand-over has made is taken over exactly when the old
enclave holds no path at all, or some G hash. -/
theorem genuine_upgrade_taken_over_iff
    (hgen : idGenUpgradeData sha256 mem floatText usable env wl blockHeight =
      some (.success, wl', some data))
    (hsorted : Sorted ltBytes wl.srdPath2hashs)
    (hpaths : ∀ p ∈ wl.srdPath2hashs, NoEscape p.1 ∧ Untagged p.1)
    (hfiles : ∀ f ∈ wl.checkedFiles, IsEntry f.json) (hheight : blockHeight.toNat < 2 ^ 63)
    (hhash : ∀ h, NoEscape (env.blockHash h).2.val ∧ Untagged (env.blockHash h).2.val)
    (hsign : ∀ m sig, env.sign wl.idKeyPair.priKey m = some sig →
      verify wl.idKeyPair.pubKey m sig = true)
    (hsha : sha256 [] ≠ zeroHash) (hdata : s.received ++ c.data = data)
    (hlast : c.transferEnd = true) (hbuf : encMalloc c.mallocBuffer c.totalSize = true)
    (hcheck : CheckOk wl.srdPath2hashs c.env) :
    (∃ height hash, reportTarget env wl blockHeight = .ok (height, hash) ∧
      TakenOver sha256 mem verify tagOf env wl' height hash s c) ↔ SrdHeld wl.srdPath2hashs := by
  obtain ⟨d, hd, htext, htarget, hsrd⟩ := idGenUpgradeData_givenOut hgen hsorted hpaths hfiles
    hheight hhash hsign
  have hiff : TakenOver sha256 mem verify tagOf env wl' d.height d.hash s c ↔
      SrdHeld wl'.srdPath2hashs :=
    hd.taken_over_iff hsha (hdata.trans htext) hlast hbuf (by rw [hsrd]; exact hcheck)
  rw [hsrd] at hiff
  rw [← hiff]
  constructor
  · rintro ⟨height, hash, htarget', htaken⟩
    obtain ⟨rfl, rfl⟩ := Prod.mk.inj (Except.ok.inj (htarget.symm.trans htarget'))
    exact htaken
  · intro htaken
    exact ⟨d.height, d.hash, htarget, htaken⟩

end

/-! ### Two small hand-overs -/

def hashSig (m : Bytes) : Signature :=
  ⟨(Sha256.sha256 m).val ++ (Sha256.sha256 m).val, by
    rw [List.length_append, (Sha256.sha256 m).property]⟩

def hashVerify : Verify := fun _ m sig => decide (sig = hashSig m)

def openGen : GenDataEnv where
  mallocHash := true
  blockHash := fun _ => (.success, ⟨List.replicate 64 97, rfl⟩)
  report := ⟨true, true, true, true, true, fun _ m => some (hashSig m)⟩
  upload := fun _ => .success
  mallocFiles := true
  allocSrd := true
  allocFiles := true
  openContext := true
  mallocSig := true
  sign := fun _ m => some (hashSig m)
  mallocBuffer := true

def oldWorkload (srd : List (Bytes × List Bytes)) : Workload Unit :=
  { Seal.freshWorkload with
    srdPath2hashs := srd
    checkedFiles := [⟨(), smallEntry.json⟩]
    validatedProof := 1 }

def genSmall (srd : List (Bytes × List Bytes)) : Option (CrustStatus × Workload Unit × Option Bytes) :=
  idGenUpgradeData Sha256.sha256 plainMem (fun v _ => v) (max 24) openGen (oldWorkload srd) 700

def freshState : State Unit := ⟨Seal.freshWorkload, 0, []⟩

def wholeCall (data : Bytes) : Call := ⟨data, 2000, true, true, quietEnv⟩

theorem genSmall_success {srd : List (Bytes × List Bytes)}
    (h : (genSmall srd).map (fun r => (r.1, r.2.2.isSome)) = some (.success, true)) :
    ∃ wl' data, genSmall srd = some (.success, wl', some data) := by
  obtain ⟨⟨status, wl', data⟩, hrun, hr⟩ := Option.map_eq_some_iff.mp h
  simp only [Prod.mk.injEq] at hr
  obtain ⟨rfl, hsome⟩ := hr
  obtain ⟨data, rfl⟩ := Option.isSome_iff_exists.mp hsome
  exact ⟨wl', data, hrun⟩

theorem oldWorkload_entries (srd : List (Bytes × List Bytes)) :
    ∀ f ∈ (oldWorkload srd).checkedFiles, IsEntry f.json := smallWorkload_wellFormed.files

theorem hashVerify_hashSig (key : PubKey) (m : Bytes) (sig : Signature)
    (h : some (hashSig m) = some sig) : hashVerify key m sig = true := by
  cases h
  exact decide_eq_true rfl

theorem openGen_hash (h : UInt64) : NoEscape (openGen.blockHash h).2.val ∧
    Untagged (openGen.blockHash h).2.val := by
  change NoEscape (List.replicate 64 97) ∧ Untagged (List.replicate 64 97)
  decide

theorem wholeCall_buffer (data : Bytes) :
    encMalloc (wholeCall data).mallocBuffer (wholeCall data).totalSize = true := by
  change encMalloc true 2000 = true
  decide

theorem quietEnv_checkOk {srd : List (Bytes × List Bytes)} : CheckOk srd quietEnv :=
  ⟨rfl, fun _ _ _ _ => rfl, rfl, rfl, rfl, rfl, rfl⟩

theorem sha256_nil_ne_zero : Sha256.sha256 [] ≠ zeroHash := by decide +kernel

def twoDisks : List (Bytes × List Bytes) := [(str "/a", []), (str "/b", [List.replicate 32 1])]

theorem genuine_upgrade_twoDisks :
    ∃ wl' data, genSmall twoDisks = some (.success, wl', some data) ∧
      ∃ height hash, reportTarget openGen (oldWorkload twoDisks) 700 = .ok (height, hash) ∧
        TakenOver Sha256.sha256 plainMem hashVerify (fun _ => ()) openGen wl' height hash freshState
          (wholeCall data) := by
  obtain ⟨wl', data, hrun⟩ : ∃ wl' data, genSmall twoDisks = some (.success, wl', some data) :=
    genSmall_success (by decide +kernel)
  refine ⟨wl', data, hrun, (genuine_upgrade_taken_over_iff hrun ?_ (by decide)
    (oldWorkload_entries twoDisks) (by decide) openGen_hash
    (fun m sig h => hashVerify_hashSig _ m sig h) sha256_nil_ne_zero rfl rfl
    (wholeCall_buffer data) quietEnv_checkOk).mpr (.inr ⟨_, List.mem_cons_of_mem _ List.mem_cons_self, ?_⟩)⟩
  · simp only [oldWorkload, twoDisks, Sorted, List.pairwise_cons, List.mem_cons, List.not_mem_nil,
      or_false, forall_eq, false_implies, implies_true, List.Pairwise.nil, and_true]
    decide
  · decide

theorem emptied_disk_not_taken_over :
    ∃ wl' data, genSmall [(str "/a", [])] = some (.success, wl', some data) ∧
      ¬ ∃ height hash,
        reportTarget openGen (oldWorkload [(str "/a", [])]) 700 = .ok (height, hash) ∧
        TakenOver Sha256.sha256 plainMem hashVerify (fun _ => ()) openGen wl' height hash freshState
          (wholeCall data) := by
  obtain ⟨wl', data, hrun⟩ :
      ∃ wl' data, genSmall [(str "/a", [])] = some (.success, wl', some data) :=
    genSmall_success (by decide +kernel)
  refine ⟨wl', data, hrun, ?_⟩
  rintro ⟨height, hash, htarget, htaken⟩
  obtain ⟨d, hd, htext, htarget', hsrd⟩ := idGenUpgradeData_givenOut hrun
    (List.pairwise_singleton _ _) (by decide) (oldWorkload_entries _) (by decide) openGen_hash
    (fun m sig h => hashVerify_hashSig (oldWorkload [(str "/a", [])]).idKeyPair.pubKey m sig h)
  obtain ⟨rfl, rfl⟩ := Prod.mk.inj (Except.ok.inj (htarget.symm.trans htarget'))
  have hheld := (hd.taken_over_iff (s := freshState) (c := wholeCall data) sha256_nil_ne_zero htext
    rfl (wholeCall_buffer data) quietEnv_checkOk).mp htaken
  rw [hsrd] at hheld
  rcases hheld with h | ⟨p, hp, hne⟩
  · cases h
  · rw [List.mem_singleton.mp hp] at hne
    exact hne rfl

end CrustSworker.Upgrade

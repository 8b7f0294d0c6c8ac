import CrustSworker.JsonParse
import CrustSworker.Merkle
import CrustSworker.Sha256
import CrustSworker.TextSearch
import CrustSworker.Workload
import Mathlib.Data.List.Forall2

/-!
# Sealing a file

`storage_seal_file` with its recursive walk `_storage_seal_file`. What the host, the
allocator and the SGX library answer while a node is handled is a parameter, one
record for each position of the tree. `none` is an abort of the enclave: a fault in
the JSON loader, or a null pointer that is written through. Without a buffer for its hex text a
new hash is the empty text, and the walk goes on.

A leaf has exits that return `CRUST_SUCCESS` without having sealed anything, and its
parent cannot tell. The two results at the end say exactly what a successful call
guarantees about the data behind the new entry.
-/

namespace CrustSworker.Seal

open Merkle

variable {τ : Type}

structure NodeEnv where
  getStorageFile : CrustStatus × Option Bytes
  mallocData : Bool
  mallocOrgHash : Bool
  mallocSealed : Bool
  sgxSealData : Bytes → Option Bytes
  replaceFile : CrustStatus
  mallocSubHashs : Bool
  mallocNewHash : Bool
  mallocHexHash : Bool

structure Block where
  oldPath : Bytes
  newPath : Bytes
  data : Bytes
  sealed : Bytes

structure Walk where
  tree : Bytes
  nodeSize : Nat
  blockNum : Nat
  blocks : List Block

abbrev Sealed := CrustStatus × Walk × Bytes

def blockPath (path : Bytes) (blockNum : Nat) (hash : Bytes) : Bytes :=
  path ++ str "/" ++ decNat blockNum ++ str "_" ++ hash

def leafHead : Bytes := str "\x7b\"" ++ mtLinksNum ++ str "\":"

def nodeTail (hash : Bytes) (size : Nat) : Bytes :=
  str "\"" ++ mtHash ++ str "\":\"" ++ hash ++ str "\"," ++ str "\"" ++ mtSize ++ str "\":"
    ++ decNat size ++ str "\x7d"

/-- `seal_data_mrsigner`: the check of the allocation looks at the wrong pointer. -/
def sealDataMrsigner (e : NodeEnv) (src : Bytes) : Option (CrustStatus × Bytes) :=
  if ¬ e.mallocSealed then none
  else
    match e.sgxSealData src with
    | none => some (.sealDataFailed, [])
    | some out => some (.success, out)

section
variable (sha256 : Bytes → Hash) (mem : Mem) (env : Pos → NodeEnv) (path : Bytes)

def sealBlock (p : Pos) (n : NodeInfo) (w : Walk) (data : Bytes) : Option Sealed :=
  match sealDataMrsigner (env p) data with
  | none => none
  | some (.success, out) =>
    let newHash := hexstringSafeWith (env p).mallocHexHash (sgxSha256Msg sha256 out).val
    if (env p).replaceFile ≠ .success then some ((env p).replaceFile, w, n.hash)
    else
      some (.success,
        { tree := w.tree ++ leafHead ++ decInt n.linksNum ++ str ","
            ++ nodeTail newHash out.length
          nodeSize := w.nodeSize + out.length
          blockNum := w.blockNum + 1
          blocks := w.blocks ++ [⟨blockPath path w.blockNum n.hash,
            blockPath path w.blockNum newHash, data, out⟩] },
        newHash)
  | some (status, _) => some (status, w, n.hash)

def sealLeaf (p : Pos) (n : NodeInfo) (w : Walk) : Option Sealed :=
  match (env p).getStorageFile with
  | (status, none) => some (status, w, n.hash)
  | (status, some data) =>
    if status ≠ .success then some (status, w, n.hash)
    else if n.dataSize ≠ Int.bmod data.length (2 ^ 64) then
      some (.storageNewFileSizeError, w, n.hash)
    -- The failed allocation leaves the status of the ocall.
    else if ¬ encMalloc (env p).mallocData data.length then some (.success, w, n.hash)
    else
      match hexStringToBytes n.hash with
      | none => some (.mallocFailed, w, n.hash)
      | some orgHash =>
        if ¬ (env p).mallocOrgHash then some (.mallocFailed, w, n.hash)
        else if mem.read orgHash 32 ≠ sgxSha256Msg sha256 data then
          some (.storageUnexpectedFileBlock, w, n.hash)
        else sealBlock sha256 env path p n w data

def closeNode (e : NodeEnv) (n : NodeInfo) (w c : Walk) (sub : Bytes) : Sealed :=
  let newHash := hexstringSafeWith e.mallocHexHash (sgxSha256Msg sha256 sub).val
  (.success,
    { c with
      tree := c.tree ++ str "],\"" ++ mtLinksNum ++ str "\":" ++ decInt n.linksNum ++ str ","
        ++ nodeTail newHash c.nodeSize
      nodeSize := w.nodeSize + c.nodeSize },
    newHash)

mutual

def sealTree (p : Pos) (w : Walk) : Tree → Option Sealed
  | .node n links =>
    if n.size = 0 then some (.success, w, n.hash)
    else if n.linksNum = 0 then sealLeaf sha256 mem env path p n w
    else
      let c := { w with tree := w.tree ++ str "\x7b\"" ++ mtLinks ++ str "\": [", nodeSize := 0 }
      if ¬ encMalloc (env p).mallocSubHashs (sizeT (n.linksNum * hashLength)) then
        some (.mallocFailed, c, n.hash)
      else
        match sealLinks p n.linksNum 0 c links with
        | none => none
        | some (.success, c, sub) => some (closeNode sha256 (env p) n w c sub)
        | some (status, c, _) => some (status, c, n.hash)

def sealLinks (p : Pos) (linksNum : Int) (i : Nat) (w : Walk) : List Tree → Option Sealed
  | [] => some (.success, w, [])
  | t :: ts =>
    match sealTree (i :: p) w t with
    | none => none
    | some (.success, w, hash) =>
      if ¬ (env (i :: p)).mallocNewHash then some (.mallocFailed, w, [])
      else
        let w := if (i : Int) ≠ linksNum - 1 then { w with tree := w.tree ++ str "," } else w
        match sealLinks p linksNum (i + 1) w ts with
        | none => none
        | some (status, w, sub) => some (status, w, (hexHash mem hash).val ++ sub)
    | some (status, w, _) => some (status, w, [])

end

end

/-! ### `storage_seal_file` -/

structure SealEnv where
  merkle : Pos → MerkleAlloc
  node : Pos → NodeEnv
  renameDir : CrustStatus
  mallocNewRoot : Bool
  mallocOrgRoot : Bool
  persistTree : CrustStatus
  persistMeta : CrustStatus

structure SealResult (τ : Type) where
  status : CrustStatus
  wl : Workload τ
  newPath : Bytes
  newTree : Bytes
  blocks : List Block

def renamedPath (oldPath orgRoot newRoot : Bytes) : Bytes :=
  oldPath.take ((TextSearch.find orgRoot oldPath 0).getD oldPath.length) ++ newRoot

def fileEntry (newHash orgHash : Hash) (nodeSize : Nat) (orgNodeSize : Int) (blockNum : Nat) :
    JSON :=
  (((((JSON.null.put fileHash (.hash newHash)).put fileOldHash (.hash orgHash)).put
    fileSize (.integral nodeSize)).put fileOldSize (.integral orgNodeSize)).put
    fileBlockNum (.integral blockNum)).put fileStatus (.string (str "000"))

def addSealed (mem : Mem) (env : SealEnv) (tag : τ) (wl : Workload τ) (path : Bytes)
    (n : NodeInfo) (w : Walk) (newRoot : Bytes) : SealResult τ :=
  let newPath := renamedPath path n.hash newRoot
  let exit (status : CrustStatus) (wl : Workload τ) : SealResult τ :=
    ⟨status, wl, newPath, w.tree, w.blocks⟩
  if env.renameDir ≠ .success then ⟨env.renameDir, wl, [], [], w.blocks⟩
  else
    match hexStringToBytes newRoot, hexStringToBytes n.hash with
    | some newHash, some orgHash =>
      if ¬ (env.mallocNewRoot ∧ env.mallocOrgRoot) then exit .unexpectedError wl
      else if env.persistTree ≠ .success then exit env.persistTree wl
      else if env.persistMeta ≠ .success then exit env.persistMeta wl
      else
        let file := fileEntry (mem.read newHash 32) (mem.read orgHash 32) w.nodeSize n.dataSize
          w.blockNum
        exit .success ((wl.addNewFile ⟨tag, file⟩).setWlSpec statusUnconfirmed n.dataSize)
    | _, _ => exit .unexpectedError wl

def storageSealFile (sha256 : Bytes → Hash) (mem : Mem) (env : SealEnv) (tag : τ)
    (wl : Workload τ) (treeText path : Bytes) : Option (SealResult τ) :=
  let exit (status : CrustStatus) : Option (SealResult τ) := some ⟨status, wl, [], [], []⟩
  if wl.checkedFiles.length + wl.newFiles.length ≥ fileNumberUpperLimit then
    exit .fileNumberExceed
  else
    match JsonParse.load mem treeText with
    | .error _ => none
    | .ok treeJson =>
      if treeJson.size = 0 then exit .invalidMerkletree
      else
        let tree := treeOf treeJson
        match validateMerkletree sha256 mem env.merkle [] tree with
        | .success =>
          match sealTree sha256 mem env.node path [] ⟨[], 0, 0, []⟩ tree with
          | none => none
          | some (.success, w, newRoot) => some (addSealed mem env tag wl path tree.info w newRoot)
          | some (status, w, _) => some ⟨status, wl, [], [], w.blocks⟩
        | status => exit status

/-! ### What a successful walk has read -/

/-- The exits of a leaf that return `CRUST_SUCCESS` with nothing sealed: the node is
empty, the host answers success with a null pointer, or the buffer for the data
cannot be allocated. -/
def skipped (env : Pos → NodeEnv) (l : Pos × NodeInfo) : Bool :=
  decide (l.2.size = 0) ||
    match (env l.1).getStorageFile with
    | (status, none) => decide (status = .success)
    | (status, some data) =>
      decide (status = .success ∧ l.2.dataSize = Int.bmod data.length (2 ^ 64)) &&
        !encMalloc (env l.1).mallocData data.length

structure Checked (sha256 : Bytes → Hash) (mem : Mem) (env : Pos → NodeEnv)
    (l : Pos × NodeInfo) (b : Block) : Prop where
  received : (env l.1).getStorageFile = (.success, some b.data)
  size : l.2.dataSize = b.data.length
  hash : ∃ orgHash, hexStringToBytes l.2.hash = some orgHash ∧
    mem.read orgHash 32 = sha256 b.data

/-- From `w` to `w'` the leaves `ls` were handled: a block for each one that was not
skipped. -/
structure Grew (sha256 : Bytes → Hash) (mem : Mem) (env : Pos → NodeEnv)
    (ls : List (Pos × NodeInfo)) (w w' : Walk) (bs : List Block) : Prop where
  checked : List.Forall₂ (Checked sha256 mem env) (ls.filter fun l => !skipped env l) bs
  blocks : w'.blocks = w.blocks ++ bs
  blockNum : w'.blockNum = w.blockNum + bs.length
  nodeSize : w'.nodeSize = w.nodeSize + (bs.map fun b => b.sealed.length).sum

section
variable {sha256 : Bytes → Hash} {mem : Mem} {env : Pos → NodeEnv} {path : Bytes}

theorem Grew.refl (w : Walk) (text : Bytes) :
    Grew sha256 mem env [] w { w with tree := text } [] := by
  refine ⟨?_, ?_, ?_, ?_⟩ <;> simp

theorem Grew.trans {ls ms : List (Pos × NodeInfo)} {w v u : Walk} {bs cs : List Block}
    (h : Grew sha256 mem env ls w v bs) (g : Grew sha256 mem env ms v u cs) :
    Grew sha256 mem env (ls ++ ms) w u (bs ++ cs) where
  checked := by
    rw [List.filter_append]
    exact List.rel_append h.checked g.checked
  blocks := by rw [g.blocks, h.blocks, List.append_assoc]
  blockNum := by
    rw [g.blockNum, h.blockNum, List.length_append]
    omega
  nodeSize := by
    rw [g.nodeSize, h.nodeSize, List.map_append, List.sum_append]
    omega

theorem Grew.skip {l : Pos × NodeInfo} (h : skipped env l = true) (w : Walk) :
    Grew sha256 mem env [l] w w [] := by
  refine ⟨?_, ?_, ?_, ?_⟩ <;> simp [h]

theorem sealBlock_success {p : Pos} {n : NodeInfo} {w w' : Walk} {data hash : Bytes}
    (h : sealBlock sha256 env path p n w data = some (.success, w', hash)) :
    ∃ b : Block, b.data = data ∧ w'.blocks = w.blocks ++ [b] ∧ w'.blockNum = w.blockNum + 1 ∧
      w'.nodeSize = w.nodeSize + b.sealed.length := by
  unfold sealBlock at h
  split at h
  · cases h
  · dsimp only at h
    split_ifs at h with hrep
    · exact absurd (congrArg Prod.fst (Option.some.inj h)) hrep
    · cases h
      exact ⟨_, rfl, rfl, rfl, rfl⟩
  · rename_i status out hns hseal
    cases h
    exact absurd rfl hns

theorem sealLeaf_grew {p : Pos} {n : NodeInfo} {w w' : Walk} {hash : Bytes} (hn : n.size ≠ 0)
    (h : sealLeaf sha256 mem env path p n w = some (.success, w', hash)) :
    ∃ bs, Grew sha256 mem env [(p, n)] w w' bs := by
  unfold sealLeaf at h
  split at h
  · rename_i status hget
    cases h
    exact ⟨[], .skip (by simp [skipped, hget]) w⟩
  rename_i status data hget
  split at h
  · rename_i hst
    cases h
    exact absurd rfl hst
  rename_i hst
  obtain rfl : status = .success := not_not.mp hst
  split at h
  · cases h
  rename_i hne
  have hsize : n.dataSize = Int.bmod data.length (2 ^ 64) := not_not.mp hne
  split at h
  · rename_i hmalloc
    cases h
    exact ⟨[], .skip (by simp [skipped, hget, hsize, hmalloc]) w⟩
  rename_i hnm
  have hmalloc : encMalloc (env p).mallocData data.length = true := not_not.mp hnm
  have hlen := encMalloc_le hmalloc
  have hcast : Int.bmod data.length (2 ^ 64) = data.length := by
    simp only [heapMaxSize] at hlen
    rw [Int.bmod_eq_of_le] <;> omega
  split at h
  · cases h
  rename_i orgHash horg
  split_ifs at h with hm hsha
  · cases h
  · obtain ⟨b, hb, hblocks, hnum, hns⟩ := sealBlock_success h
    rw [not_not, sgxSha256Msg_of_le sha256 hlen, ← hb] at hsha
    rw [hcast, ← hb] at hsize
    refine ⟨[b], ?_, hblocks, hnum, by simpa using hns⟩
    have hkeep : skipped env (p, n) = false := by
      simp [skipped, hget, hmalloc, hn]
    simp only [List.filter_cons, hkeep, Bool.not_false, ↓reduceIte, List.filter_nil]
    exact .cons ⟨by rw [hget, hb], hsize, orgHash, horg, hsha⟩ .nil
  · cases h

mutual

theorem sealTree_grew {p : Pos} {w w' : Walk} {hash : Bytes} (t : Tree)
    (h : sealTree sha256 mem env path p w t = some (.success, w', hash)) :
    ∃ bs, Grew sha256 mem env (leaves p t) w w' bs := by
  match t with
  | .node n links =>
    simp only [sealTree] at h
    simp only [leaves]
    split at h
    · rename_i hn
      cases h
      rw [if_pos (n.size_zero hn)]
      exact ⟨[], .skip (by simp [skipped, hn]) w⟩
    rename_i hn
    split at h
    · rename_i hl
      rw [if_pos hl]
      exact sealLeaf_grew hn h
    rename_i hl
    rw [if_neg hl]
    split at h
    · cases h
    split at h
    · cases h
    · rename_i c sub hlinks
      cases h
      obtain ⟨bs, hg⟩ := sealLinks_grew links hlinks
      exact ⟨bs, hg.checked, hg.blocks, hg.blockNum, by simpa using hg.nodeSize⟩
    · rename_i status c sub hns hlinks
      cases h
      exact absurd rfl hns

theorem sealLinks_grew {p : Pos} {linksNum : Int} {i : Nat} {w w' : Walk} {sub : Bytes}
    (ts : List Tree)
    (h : sealLinks sha256 mem env path p linksNum i w ts = some (.success, w', sub)) :
    ∃ bs, Grew sha256 mem env (leavesOf p i ts) w w' bs := by
  match ts with
  | [] =>
    simp only [sealLinks] at h
    cases h
    exact ⟨[], .refl w w.tree⟩
  | t :: ts =>
    simp only [sealLinks] at h
    split at h
    · cases h
    · rename_i w1 hash htree
      split at h
      · cases h
      split at h
      · cases h
      · rename_i status w2 sub' hlinks
        cases h
        obtain ⟨bs, hg⟩ := sealTree_grew t htree
        obtain ⟨cs, hc⟩ := sealLinks_grew ts hlinks
        -- The comma only changes the text.
        have hcomma : ∃ text, (if (i : Int) ≠ linksNum - 1 then
            { w1 with tree := w1.tree ++ str "," } else w1) = { w1 with tree := text } := by
          split_ifs
          · exact ⟨_, rfl⟩
          · exact ⟨_, rfl⟩
        obtain ⟨text, htext⟩ := hcomma
        rw [htext] at hc
        exact ⟨bs ++ cs, hg.trans ⟨hc.checked, hc.blocks, hc.blockNum, hc.nodeSize⟩⟩
    · rename_i status w1 hash hns htree
      cases h
      exact absurd rfl hns

end

theorem addSealed_success {senv : SealEnv} {tag : τ} {wl : Workload τ} {n : NodeInfo} {w : Walk}
    {newRoot : Bytes} (h : (addSealed mem senv tag wl path n w newRoot).status = .success) :
    ∃ newHash orgHash,
      addSealed mem senv tag wl path n w newRoot =
        ⟨.success,
          (wl.addNewFile ⟨tag, fileEntry newHash orgHash w.nodeSize n.dataSize w.blockNum⟩).setWlSpec
            statusUnconfirmed n.dataSize,
          renamedPath path n.hash newRoot, w.tree, w.blocks⟩ := by
  generalize hr : addSealed mem senv tag wl path n w newRoot = r at h ⊢
  unfold addSealed at hr
  dsimp only at hr
  split at hr
  · rename_i hren
    rw [← hr] at h
    exact absurd h hren
  split at hr
  · split_ifs at hr with hm ht hmeta
    · rw [← hr] at h
      exact absurd h ht
    · rw [← hr] at h
      exact absurd h hmeta
    · exact ⟨_, _, hr.symm⟩
    · rw [← hr] at h
      cases h
  · rw [← hr] at h
    cases h

theorem storageSealFile_success {senv : SealEnv} {tag : τ} {wl : Workload τ} {treeText : Bytes}
    {res : SealResult τ} (h : storageSealFile sha256 mem senv tag wl treeText path = some res)
    (hs : res.status = .success) :
    ∃ treeJson w newRoot newHash orgHash,
      JsonParse.load mem treeText = .ok treeJson ∧
      validateMerkletree sha256 mem senv.merkle [] (treeOf treeJson) = .success ∧
      sealTree sha256 mem senv.node path [] ⟨[], 0, 0, []⟩ (treeOf treeJson) =
        some (.success, w, newRoot) ∧
      res.blocks = w.blocks ∧ res.newTree = w.tree ∧
      res.wl = (wl.addNewFile ⟨tag, fileEntry newHash orgHash w.nodeSize
        (treeOf treeJson).info.dataSize w.blockNum⟩).setWlSpec statusUnconfirmed
          (treeOf treeJson).info.dataSize := by
  unfold storageSealFile at h
  dsimp only at h
  split_ifs at h with hlim
  · cases h
    cases hs
  split at h
  · cases h
  rename_i treeJson hload
  split_ifs at h with hsize
  · cases h
    cases hs
  split at h
  · rename_i hval
    split at h
    · cases h
    · rename_i w newRoot hwalk
      cases h
      obtain ⟨newHash, orgHash, hadd⟩ := addSealed_success hs
      rw [hadd]
      exact ⟨treeJson, w, newRoot, newHash, orgHash, hload, hval, hwalk, rfl, rfl, rfl⟩
    · rename_i status w newRoot hns hwalk
      cases h
      exact absurd hs hns
  · rename_i status hns
    cases h
    exact absurd hs hns

theorem addSealed_failed {senv : SealEnv} {tag : τ} {wl : Workload τ} {n : NodeInfo} {w : Walk}
    {newRoot : Bytes} (h : (addSealed mem senv tag wl path n w newRoot).status ≠ .success) :
    (addSealed mem senv tag wl path n w newRoot).wl = wl := by
  generalize hr : addSealed mem senv tag wl path n w newRoot = r at h ⊢
  unfold addSealed at hr
  dsimp only at hr
  split at hr
  · rw [← hr]
  split at hr
  · split_ifs at hr
    · rw [← hr]
    · rw [← hr]
    · exact absurd (hr ▸ rfl) h
    · rw [← hr]
  · rw [← hr]

theorem storageSealFile_failed {senv : SealEnv} {tag : τ} {wl : Workload τ} {treeText : Bytes}
    {res : SealResult τ} (h : storageSealFile sha256 mem senv tag wl treeText path = some res)
    (hs : res.status ≠ .success) : res.wl = wl := by
  unfold storageSealFile at h
  dsimp only at h
  split_ifs at h
  · cases h
    rfl
  split at h
  · cases h
  split_ifs at h
  · cases h
    rfl
  split at h
  · split at h
    · cases h
    · cases h
      exact addSealed_failed hs
    · cases h
      rfl
  · cases h
    rfl

/-- What an entry is worth: a block from the host for each leaf, of the size and hash
the leaf states, and the counters of the entry taken from these blocks. -/
structure Credited (sha256 : Bytes → Hash) (env : Pos → NodeEnv) (ls : List (Pos × NodeInfo))
    (blocks : List Block) (file : FileItem τ) : Prop where
  data : List.Forall₂ (fun l b => (env l.1).getStorageFile = (.success, some b.data) ∧
    l.2.dataSize = b.data.length ∧ (hexPairs l.2.hash).take 32 = (sha256 b.data).val) ls blocks
  blockNum : (file.json.get fileBlockNum).toInt = ls.length
  size : (file.json.get fileSize).toInt = (blocks.map fun b => b.sealed.length).sum

theorem fileEntry_blockNum (nh oh : Hash) (ns : Nat) (os : Int) (bn : Nat) :
    ((fileEntry nh oh ns os bn).get fileBlockNum).toInt = bn := by
  unfold fileEntry
  rw [JSON.get_put_ne _ (by decide), JSON.get_put_self]
  rfl

theorem fileEntry_oldSize (nh oh : Hash) (ns : Nat) (os : Int) (bn : Nat) :
    ((fileEntry nh oh ns os bn).get fileOldSize).toInt = os := by
  unfold fileEntry
  rw [JSON.get_put_ne _ (by decide), JSON.get_put_ne _ (by decide), JSON.get_put_self]
  rfl

theorem fileEntry_size (nh oh : Hash) (ns : Nat) (os : Int) (bn : Nat) :
    ((fileEntry nh oh ns os bn).get fileSize).toInt = ns := by
  unfold fileEntry
  rw [JSON.get_put_ne _ (by decide), JSON.get_put_ne _ (by decide), JSON.get_put_ne _ (by decide),
    JSON.get_put_self]
  rfl

theorem storageSealFile_blockNum {senv : SealEnv} {tag : τ} {wl : Workload τ} {treeText : Bytes}
    {res : SealResult τ} {file : FileItem τ}
    (h : storageSealFile sha256 mem senv tag wl treeText path = some res)
    (hs : res.status = .success) (hnew : res.wl.newFiles = wl.newFiles ++ [file]) :
    (file.json.get fileBlockNum).toInt = res.blocks.length := by
  obtain ⟨treeJson, w, newRoot, newHash, orgHash, -, -, hwalk, hblocks, -, hwl⟩ :=
    storageSealFile_success h hs
  obtain ⟨bs, hg⟩ := sealTree_grew _ hwalk
  rw [hwl] at hnew
  obtain rfl := List.singleton_inj.mp (List.append_cancel_left hnew)
  rw [fileEntry_blockNum, hblocks, hg.blocks, hg.blockNum]
  simp

theorem Checked.take {env : Pos → NodeEnv} {l : Pos × NodeInfo} {b : Block}
    (h : Checked sha256 mem env l b) (hl : 64 ≤ l.2.hash.length) :
    (hexPairs l.2.hash).take 32 = (sha256 b.data).val := by
  obtain ⟨orgHash, horg, heq⟩ := h.hash
  unfold hexStringToBytes at horg
  split_ifs at horg
  cases horg
  have hlen : 32 ≤ (hexPairs l.2.hash).length := by
    rw [length_hexPairs]
    omega
  rw [← heq, Mem.read_of_le mem hlen]

theorem checked_sum {ls : List (Pos × NodeInfo)} {bs : List Block}
    (h : List.Forall₂ (Checked sha256 mem env) ls bs) :
    (ls.map fun l => l.2.dataSize).sum = ((bs.map fun b => b.data.length).sum : Nat) := by
  induction h with
  | nil => rfl
  | cons hc _ ih => simp [hc.size, ih]

def hostEnv (answer : CrustStatus × Option Bytes) : SealEnv where
  merkle := fun _ => ⟨true, true, true⟩
  node := fun _ => ⟨answer, true, true, true, fun d => some (List.replicate 560 0 ++ d), .success,
    true, true, true⟩
  renameDir := .success
  mallocNewRoot := true
  mallocOrgRoot := true
  persistTree := .success
  persistMeta := .success

def freshWorkload : Workload Unit :=
  Workload.init ⟨⟨List.replicate 64 0, length_zeros64⟩, ⟨List.replicate 32 0, length_zeros32⟩⟩ ⟨List.replicate 64 0, length_zeros64⟩

def abcLeaf : Bytes :=
  str "\x7b\"links_num\":0,\"hash\":\"" ++ str "ba7816bf8f01cfea414140de5dae2223"
    ++ str "b00361a396177a9cb410ff61f20015ad" ++ str "\",\"size\":3\x7d"

/-- An inner node over that block which states a size of 1000. -/
def abcInner : Bytes :=
  str "\x7b\"links_num\":1,\"links\":[" ++ abcLeaf ++
    str "],\"hash\":\"" ++ str "4f8b42c22dd3729b519ba6f68d2da7cc" ++
    str "5b2d606d05daed5ad5128cc03e6c6358" ++ str "\",\"size\":1000\x7d"

def sealSmall (treeText : Bytes) (answer : CrustStatus × Option Bytes) :
    Option (SealResult Unit) :=
  storageSealFile Sha256.sha256 ⟨fun _ _ => 0⟩ (hostEnv answer) () freshWorkload treeText (str "p")

theorem sealSmall_runs :
    (sealSmall abcLeaf (.success, some (str "abc"))).map
        (fun r => (r.status, r.wl.newFiles.length, r.blocks.length, r.newPath.length)) =
      some (.success, 1, 1, 65) ∧
    (sealSmall abcLeaf (.success, none)).map
        (fun r => (r.status, r.wl.newFiles.length, r.blocks.length)) = some (.success, 1, 0) ∧
    (JsonParse.load ⟨fun _ _ => 0⟩ abcLeaf).toOption.map
        (fun j => (leaves [] (treeOf j)).length) = some 1 ∧
    (sealSmall abcInner (.success, some (str "abc"))).map
        (fun r => (r.status, r.wl.newFiles.map FileItem.oldSize,
          (r.blocks.map fun b => b.data.length).sum)) = some (.success, [1000], 3) := by
  decide +kernel

theorem sealSmall_abc :
    ∃ res, sealSmall abcLeaf (.success, some (str "abc")) = some res ∧ res.status = .success ∧
      res.wl.newFiles.length = 1 ∧ res.blocks.length = 1 ∧ res.newPath.length = 65 := by
  obtain ⟨res, h, hv⟩ := Option.map_eq_some_iff.mp sealSmall_runs.1
  simp only [Prod.mk.injEq] at hv
  exact ⟨res, h, hv⟩

theorem storageSealFile_credited_iff {senv : SealEnv} {tag : τ} {wl : Workload τ}
    {treeText : Bytes} {res : SealResult τ}
    (h : storageSealFile sha256 mem senv tag wl treeText path = some res)
    (hs : res.status = .success) :
    ∃ (treeJson : JSON) (file : FileItem τ), JsonParse.load mem treeText = .ok treeJson ∧
      res.wl.newFiles = wl.newFiles ++ [file] ∧
      (Credited sha256 senv.node (leaves [] (treeOf treeJson)) res.blocks file ↔
        ∀ l ∈ leaves [] (treeOf treeJson),
          skipped senv.node l = false ∧ 64 ≤ l.2.hash.length) := by
  obtain ⟨treeJson, w, newRoot, newHash, orgHash, hload, -, hwalk, hblocks, -, hwl⟩ :=
    storageSealFile_success h hs
  obtain ⟨bs, hg⟩ := sealTree_grew _ hwalk
  have hbs : res.blocks = bs := by rw [hblocks, hg.blocks, List.nil_append]
  refine ⟨treeJson, _, hload, by rw [hwl]; rfl, ?_⟩
  rw [hbs]
  constructor
  · intro hc
    -- As many blocks as leaves: none was skipped.
    have hlen := hc.data.length_eq
    rw [← hg.checked.length_eq] at hlen
    have hkept := List.length_filter_eq_length_iff.mp hlen.symm
    have hlong : List.Forall₂ (fun (l : Pos × NodeInfo) (_ : Block) =>
        64 ≤ l.2.hash.length ∧ True) (leaves [] (treeOf treeJson)) bs := by
      refine hc.data.imp fun l b hb => ⟨?_, trivial⟩
      have h32 := congrArg List.length hb.2.2
      rw [List.length_take, length_hexPairs, (sha256 b.data).property] at h32
      omega
    intro l hl
    exact ⟨by simpa using hkept l hl, ((List.forall₂_and_left _ _).mp hlong).1 l hl⟩
  · intro hall
    have hfilter : (leaves [] (treeOf treeJson)).filter (fun l => !skipped senv.node l) =
        leaves [] (treeOf treeJson) := by
      rw [List.filter_eq_self]
      intro l hl
      rw [(hall l hl).1, Bool.not_false]
    have hchk := hg.checked
    rw [hfilter] at hchk
    refine ⟨?_, ?_, ?_⟩
    · refine ((List.forall₂_and_left _ _).mpr ⟨hall, hchk⟩).imp fun l b hb => ?_
      exact ⟨hb.2.received, hb.2.size, hb.2.take hb.1.2⟩
    · rw [fileEntry_blockNum, hg.blockNum, hchk.length_eq]
      simp
    · rw [fileEntry_size, hg.nodeSize]
      simp

theorem storageSealFile_credited_abc :
    ∃ res, sealSmall abcLeaf (.success, some (str "abc")) = some res ∧ res.status = .success ∧
      ∃ (treeJson : JSON) (file : FileItem Unit),
        JsonParse.load ⟨fun _ _ => 0⟩ abcLeaf = .ok treeJson ∧
        res.wl.newFiles = freshWorkload.newFiles ++ [file] ∧
        (Credited Sha256.sha256 (hostEnv (.success, some (str "abc"))).node
            (leaves [] (treeOf treeJson)) res.blocks file ↔
          ∀ l ∈ leaves [] (treeOf treeJson),
            skipped (hostEnv (.success, some (str "abc"))).node l = false ∧
              64 ≤ l.2.hash.length) := by
  obtain ⟨res, h, hs, -⟩ := sealSmall_abc
  exact ⟨res, h, hs, storageSealFile_credited_iff h hs⟩

/-- A null pointer under `CRUST_SUCCESS` is credited as a file. -/
theorem storageSealFile_credits_nothing :
    ∃ res, sealSmall abcLeaf (.success, none) = some res ∧ res.status = .success ∧
      res.wl.newFiles.length = 1 ∧
      ∀ (treeJson : JSON) (file : FileItem Unit),
        JsonParse.load ⟨fun _ _ => 0⟩ abcLeaf = .ok treeJson →
        ¬ Credited Sha256.sha256 (hostEnv (.success, none)).node (leaves [] (treeOf treeJson))
          res.blocks file := by
  obtain ⟨-, hrun, hleaves, -⟩ := sealSmall_runs
  obtain ⟨res, h, hv⟩ := Option.map_eq_some_iff.mp hrun
  simp only [Prod.mk.injEq] at hv
  refine ⟨res, h, hv.1, hv.2.1, ?_⟩
  intro treeJson file hload hc
  rw [hload] at hleaves
  have hlen := hc.data.length_eq
  rw [hv.2.2] at hlen
  simp [Except.toOption, hlen] at hleaves

theorem storageSealFile_oldSize_iff {senv : SealEnv} {tag : τ} {wl : Workload τ}
    {treeText : Bytes} {res : SealResult τ}
    (h : storageSealFile sha256 mem senv tag wl treeText path = some res)
    (hs : res.status = .success) :
    ∃ (treeJson : JSON) (file : FileItem τ), JsonParse.load mem treeText = .ok treeJson ∧
      res.wl.newFiles = wl.newFiles ++ [file] ∧
      (file.oldSize = (((res.blocks.map fun b => b.data.length).sum : Nat) : Int) ↔
        (treeOf treeJson).info.dataSize =
          (((leaves [] (treeOf treeJson)).filter fun l => !skipped senv.node l).map
            fun l => l.2.dataSize).sum) := by
  obtain ⟨treeJson, w, newRoot, newHash, orgHash, hload, -, hwalk, hblocks, -, hwl⟩ :=
    storageSealFile_success h hs
  obtain ⟨bs, hg⟩ := sealTree_grew _ hwalk
  have hbs : res.blocks = bs := by rw [hblocks, hg.blocks, List.nil_append]
  refine ⟨treeJson, _, hload, by rw [hwl]; rfl, ?_⟩
  rw [hbs, checked_sum hg.checked, FileItem.oldSize, fileEntry_oldSize]

theorem storageSealFile_oldSize_abc :
    ∃ res, sealSmall abcLeaf (.success, some (str "abc")) = some res ∧ res.status = .success ∧
      ∃ (treeJson : JSON) (file : FileItem Unit),
        JsonParse.load ⟨fun _ _ => 0⟩ abcLeaf = .ok treeJson ∧
        res.wl.newFiles = freshWorkload.newFiles ++ [file] ∧
        (file.oldSize = (((res.blocks.map fun b => b.data.length).sum : Nat) : Int) ↔
          (treeOf treeJson).info.dataSize =
            (((leaves [] (treeOf treeJson)).filter fun l =>
              !skipped (hostEnv (.success, some (str "abc"))).node l).map
                fun l => l.2.dataSize).sum) := by
  obtain ⟨res, h, hs, -⟩ := sealSmall_abc
  exact ⟨res, h, hs, storageSealFile_oldSize_iff h hs⟩

/-- Three bytes are read and hashed, and the entry counts a thousand. -/
theorem storageSealFile_oldSize_inflated :
    ∃ res, sealSmall abcInner (.success, some (str "abc")) = some res ∧ res.status = .success ∧
      ∃ file, res.wl.newFiles = [file] ∧ file.oldSize = 1000 ∧
        (res.blocks.map fun b => b.data.length).sum = 3 := by
  obtain ⟨-, -, -, hrun⟩ := sealSmall_runs
  obtain ⟨res, h, hv⟩ := Option.map_eq_some_iff.mp hrun
  simp only [Prod.mk.injEq] at hv
  obtain ⟨file, hnew, hold⟩ := List.map_eq_singleton_iff.mp hv.2.1
  exact ⟨res, h, hv.1, file, hnew, hold, hv.2.2⟩

end

end CrustSworker.Seal

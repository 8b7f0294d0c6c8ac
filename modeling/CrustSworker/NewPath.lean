import CrustSworker.SealFailure
import CrustSworker.Unseal

/-!
# The path that is handed back

Sealing and unsealing copy the new path of the directory to a buffer of the caller that is as long
as the path the caller gave. Sealing cuts the path off where the root hash begins, and takes the
whole path where it does not occur; unsealing cuts off the last part of the directory, and takes
the whole directory where it has no separator.
-/

namespace CrustSworker.NewPath

open JsonParse Merkle Persistence Seal SealFailure Unseal

variable {τ : Type}

/-! ### Sealing -/

/-- The call gets to the renaming of the directory and to the copy behind it. -/
structure Renames (sha256 : Bytes → Hash) (mem : Mem) (env : SealEnv) (wl : Workload τ)
    (treeText path : Bytes) (treeJson : JSON) : Prop where
  limit : wl.checkedFiles.length + wl.newFiles.length < fileNumberUpperLimit
  load : JsonParse.load mem treeText = .ok treeJson
  size : (treeOf treeJson).info.size ≠ 0
  valid : validateMerkletree sha256 mem env.merkle [] (treeOf treeJson) = .success
  walk : ∃ w newRoot, sealTree sha256 mem env.node path [] ⟨[], 0, 0, []⟩ (treeOf treeJson) =
    some (.success, w, newRoot)
  rename : env.renameDir = .success

def rootLength (env : Pos → NodeEnv) (n : NodeInfo) : Nat :=
  if n.linksNum = 0 ∧ skipped env ([], n) then n.hash.length
  else if (env []).mallocHexHash then 64
  else 0

/-- From its first occurrence on, there is room for the new root hash in place of the old one. -/
def Placed (env : Pos → NodeEnv) (path : Bytes) (n : NodeInfo) : Prop :=
  rootLength env n = 0 ∨
    ∃ i, TextSearch.find n.hash path 0 = some i ∧ i + rootLength env n ≤ path.length

theorem treeOf_size (treeJson : JSON) : (treeOf treeJson).info.size = treeJson.size := by
  cases treeJson <;> rfl

section
variable {sha256 : Bytes → Hash} {mem : Mem} {env : Pos → NodeEnv} {path : Bytes}

theorem length_hexstringSafeWith (served : Bool) (h : Hash) :
    (hexstringSafeWith served h.val).length = if served then 64 else 0 := by
  rw [hexstringSafeWith_hash]
  split_ifs
  · rw [length_hexstringSafe, h.property]
  · rfl

theorem sealLeaf_length {p : Pos} {n : NodeInfo} {w w' : Walk} {hash : Bytes} (hn : n.size ≠ 0)
    (h : sealLeaf sha256 mem env path p n w = some (.success, w', hash)) :
    hash.length = if skipped env (p, n) then n.hash.length
      else if (env p).mallocHexHash then 64 else 0 := by
  obtain ⟨bs, hg⟩ := sealLeaf_grew hn h
  have hblocks := hg.blocks
  have hchecked := hg.checked.length_eq
  have hself : sealLeaf sha256 mem env path p n w =
      sealLeaf sha256 mem (withReplace env fun q => (env q).replaceFile) path p n w := rfl
  rw [hself] at h
  cases sealLeaf_ends sha256 mem env p n with
  | exits status hall =>
    rw [hall] at h
    cases h
    have hnil : bs = [] := List.self_eq_append_right.mp hblocks
    have hskip : skipped env (p, n) = true := by
      by_contra hkeep
      simp [hnil, hkeep] at hchecked
    rw [if_pos hskip]
  | aborts hall =>
    rw [hall] at h
    cases h
  | replaces data out hall =>
    rw [hall] at h
    split_ifs at h with hr
    · exact absurd (congrArg Prod.fst (Option.some.inj h)) hr
    · cases h
      have hone : bs.length = 1 := by
        have hlen := congrArg List.length hblocks
        rw [List.length_append, List.length_append, List.length_singleton] at hlen
        omega
      have hkeep : ¬ skipped env (p, n) = true := by
        intro hskip
        simp [hone, hskip] at hchecked
      rw [if_neg hkeep, length_hexstringSafeWith]

theorem sealTree_length {w w' : Walk} {hash : Bytes} {t : Tree} (hn : t.info.size ≠ 0)
    (h : sealTree sha256 mem env path [] w t = some (.success, w', hash)) :
    hash.length = rootLength env t.info := by
  cases t with
  | node n links =>
    have hn' : n.size ≠ 0 := hn
    rw [sealTree, if_neg hn'] at h
    have hinfo : (Tree.node n links).info = n := rfl
    rw [rootLength, hinfo]
    by_cases hleaf : n.linksNum = 0
    · rw [if_pos hleaf] at h
      rw [sealLeaf_length hn' h]
      simp only [hleaf, true_and]
    · rw [if_neg hleaf] at h
      rw [if_neg fun hboth => hleaf hboth.1]
      dsimp only at h
      split at h
      · cases h
      split at h
      · cases h
      · rename_i c sub hlinks
        cases h
        exact length_hexstringSafeWith _ _
      · rename_i status c sub hns hlinks
        cases h
        exact absurd rfl hns

theorem renamedPath_fits_iff {n : NodeInfo} {newRoot : Bytes}
    (hroot : newRoot.length = rootLength env n) :
    (renamedPath path n.hash newRoot).length ≤ path.length ↔ Placed env path n := by
  rw [renamedPath, List.length_append, hroot, Placed]
  cases hfind : TextSearch.find n.hash path 0 with
  | some i =>
    obtain ⟨-, -, -, hlen⟩ := TextSearch.find_sound hfind
    have hi : i ≤ path.length := by omega
    rw [Option.getD_some, List.length_take, Nat.min_eq_left hi]
    simp only [Option.some.injEq, exists_eq_left']
    omega
  | none =>
    rw [Option.getD_none, List.take_length]
    simp only [reduceCtorEq, false_and, exists_false, or_false]
    omega

theorem storageSealFile_newPath {senv : SealEnv} {tag : τ} {wl : Workload τ} {treeText : Bytes}
    {treeJson : JSON} {res : SealResult τ}
    (hrenames : Renames sha256 mem senv wl treeText path treeJson)
    (h : storageSealFile sha256 mem senv tag wl treeText path = some res) :
    ∃ newRoot, newRoot.length = rootLength senv.node (treeOf treeJson).info ∧
      res.newPath = renamedPath path (treeOf treeJson).info.hash newRoot := by
  obtain ⟨w, newRoot, hwalk⟩ := hrenames.walk
  refine ⟨newRoot, sealTree_length hrenames.size hwalk, ?_⟩
  have hlimit : ¬ wl.checkedFiles.length + wl.newFiles.length ≥ fileNumberUpperLimit :=
    Nat.not_le.mpr hrenames.limit
  have hsize : treeJson.size ≠ 0 := treeOf_size treeJson ▸ hrenames.size
  simp only [storageSealFile, if_neg hlimit, hrenames.load, if_neg hsize, hrenames.valid, hwalk,
    Option.some.injEq] at h
  rw [← h, addSealed]
  dsimp only
  rw [if_neg (not_not.mpr hrenames.rename)]
  split
  · split_ifs <;> rfl
  · rfl

end

/-! ### Unsealing -/

/-- The last part of the directory is behind a separator and no shorter than the original root
hash. -/
def Replaceable (dir : Bytes) (metaJson : JSON) : Prop :=
  ∃ i, findLastOf slash dir = some i ∧
    i + 1 + ((metaJson.get fileOldHash).toStr).length ≤ dir.length

theorem findLastOf_lt {c : UInt8} {s : Bytes} {i : Nat} (h : findLastOf c s = some i) :
    i < s.length := by
  induction s generalizing i with
  | nil => cases h
  | cons b s ih =>
    rw [findLastOf] at h
    split at h
    · rename_i j hj
      cases h
      exact Nat.succ_lt_succ (ih hj)
    · split_ifs at h
      cases h
      exact Nat.succ_pos s.length

theorem newDir_fits_iff (dir : Bytes) (metaJson : JSON) :
    (newDir dir metaJson).length ≤ dir.length ↔ Replaceable dir metaJson := by
  have hslash : (str "/").length = 1 := rfl
  rw [newDir, upDir, Replaceable, List.length_append, List.length_append, hslash]
  cases hlast : findLastOf slash dir with
  | some i =>
    have hi := findLastOf_lt hlast
    rw [Option.getD_some, List.length_take, Nat.min_eq_left (Nat.le_of_lt hi)]
    simp
  | none =>
    rw [Option.getD_none, List.take_length]
    simp only [reduceCtorEq, false_and, exists_false, iff_false]
    omega

theorem storageUnsealFile_newPath {sha256 : Bytes → Hash} {mem : Mem} {u : Unsealing}
    {env : UnsealEnv} {files : List Bytes} {dir newPath : Bytes} {res : UnsealResult}
    (h : storageUnsealFile sha256 mem u env files dir = some res)
    (hcopied : res.newPath = some newPath) :
    ∃ treeMeta metaJson, env.persistGet (metaKey dir) = (.success, some treeMeta) ∧
      JsonParse.load mem treeMeta = .ok metaJson ∧ newPath = newDir dir metaJson := by
  unfold storageUnsealFile at h
  split at h
  · cases h
    cases hcopied
  rename_i status treeMeta hget
  split_ifs at h with hstatus
  · cases h
    cases hcopied
  split at h
  · cases h
  rename_i metaJson hload
  split at h
  · cases h
  rename_i r hloop
  split_ifs at h with hfinished
  · cases h
    cases hcopied
    exact ⟨treeMeta, metaJson, by rw [hget, not_not.mp hstatus], hload, rfl⟩
  · cases h
    cases hcopied

/-! ### Both -/

/-- A call that gets to the copy stays in the buffer of the caller exactly when the root hash stands
in the path with enough room behind it, or the last part of the directory is long enough. -/
theorem new_path_fits_iff (sha256 : Bytes → Hash) (mem : Mem) :
    (∀ (env : SealEnv) (tag : τ) (wl : Workload τ) (treeText path : Bytes) (treeJson : JSON)
        (res : SealResult τ),
      Renames sha256 mem env wl treeText path treeJson →
      storageSealFile sha256 mem env tag wl treeText path = some res →
      (res.newPath.length ≤ path.length ↔ Placed env.node path (treeOf treeJson).info)) ∧
    ∀ (u : Unsealing) (env : UnsealEnv) (files : List Bytes) (dir newPath : Bytes)
        (res : UnsealResult),
      storageUnsealFile sha256 mem u env files dir = some res → res.newPath = some newPath →
      ∃ treeMeta metaJson, env.persistGet (metaKey dir) = (.success, some treeMeta) ∧
        JsonParse.load mem treeMeta = .ok metaJson ∧
        (newPath.length ≤ dir.length ↔ Replaceable dir metaJson) := by
  constructor
  · intro env tag wl treeText path treeJson res hrenames h
    obtain ⟨newRoot, hlength, hpath⟩ := storageSealFile_newPath hrenames h
    rw [hpath]
    exact renamedPath_fits_iff hlength
  · intro u env files dir newPath res h hcopied
    obtain ⟨treeMeta, metaJson, hget, hload, hpath⟩ := storageUnsealFile_newPath h hcopied
    refine ⟨treeMeta, metaJson, hget, hload, ?_⟩
    rw [hpath]
    exact newDir_fits_iff dir metaJson

/-! ### One small file -/

def abcDir : Bytes := str "d/" ++ abcHash

def abcJson : JSON := (JsonParse.load zeroMem abcLeaf).toOption.getD .null

def unsealEmpty : Option UnsealResult :=
  storageUnsealFile Sha256.sha256 zeroMem ⟨List.length, some⟩
    ⟨fun _ => (.success, some (str "\x7b\"" ++ fileOldHash ++ str "\":\"y\"\x7d")),
      fun _ => ⟨(.success, none), true, true, .success, true⟩, .success⟩ [] (str "d/x")

theorem abc_runs :
    ((JsonParse.load zeroMem abcLeaf).toOption.isSome = true ∧
      (treeOf abcJson).info.size ≠ 0 ∧
      validateMerkletree Sha256.sha256 zeroMem (hostEnv (.success, some (str "abc"))).merkle []
        (treeOf abcJson) = .success) ∧
    ((sealTree Sha256.sha256 zeroMem (hostEnv (.success, some (str "abc"))).node abcDir []
        ⟨[], 0, 0, []⟩ (treeOf abcJson)).map Prod.fst = some .success ∧
      (storageSealFile Sha256.sha256 zeroMem (hostEnv (.success, some (str "abc"))) () freshWorkload
        abcLeaf abcDir).isSome = true) ∧
    (TextSearch.find (treeOf abcJson).info.hash abcDir 0 = some 2 ∧
      2 + rootLength (hostEnv (.success, some (str "abc"))).node (treeOf abcJson).info ≤
        abcDir.length) ∧
    unsealEmpty.map UnsealResult.newPath = some (some (str "d/y")) := by
  decide +kernel

theorem abc_renames : Renames Sha256.sha256 zeroMem (hostEnv (.success, some (str "abc")))
    freshWorkload abcLeaf abcDir abcJson where
  limit := by decide
  load := by
    have hload := abc_runs.1.1
    unfold abcJson
    cases hl : JsonParse.load zeroMem abcLeaf with
    | error fault =>
      rw [hl] at hload
      cases hload
    | ok treeJson => rfl
  size := abc_runs.1.2.1
  valid := abc_runs.1.2.2
  walk := by
    obtain ⟨⟨status, w, newRoot⟩, hs, rfl⟩ := Option.map_eq_some_iff.mp abc_runs.2.1.1
    exact ⟨w, newRoot, hs⟩
  rename := rfl

theorem new_path_fits_abc :
    (∃ res, storageSealFile Sha256.sha256 zeroMem (hostEnv (.success, some (str "abc"))) ()
        freshWorkload abcLeaf abcDir = some res ∧ res.newPath.length ≤ abcDir.length) ∧
      ∃ res metaJson newPath, unsealEmpty = some res ∧ res.newPath = some newPath ∧
        (newPath.length ≤ (str "d/x").length ↔ Replaceable (str "d/x") metaJson) := by
  obtain ⟨hseal, hunseal⟩ := new_path_fits_iff (τ := Unit) Sha256.sha256 zeroMem
  obtain ⟨-, ⟨-, hrun⟩, hplaced, hempty⟩ := abc_runs
  constructor
  · obtain ⟨res, hres⟩ := Option.isSome_iff_exists.mp hrun
    exact ⟨res, hres, (hseal _ _ _ _ _ _ res abc_renames hres).mpr (.inr ⟨2, hplaced⟩)⟩
  · obtain ⟨res, hres, hcopied⟩ := Option.map_eq_some_iff.mp hempty
    obtain ⟨treeMeta, metaJson, -, -, hiff⟩ := hunseal _ _ _ _ _ res hres hcopied
    exact ⟨res, metaJson, _, hres, hcopied, hiff⟩

theorem new_path_overruns : ∃ res, sealSmall abcLeaf (.success, some (str "abc")) = some res ∧
    res.status = .success ∧ ¬ res.newPath.length ≤ (str "p").length := by
  obtain ⟨res, h, hs, -, -, hlen⟩ := sealSmall_abc
  refine ⟨res, h, hs, ?_⟩
  rw [hlen]
  decide

end CrustSworker.NewPath

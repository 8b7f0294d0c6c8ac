import CrustSworker.Disk
import CrustSworker.SealedTree

/-!
# A seal that fails half way

`storage_seal_file` replaces the blocks of the user's directory one after the other while it
walks the tree, then renames the directory, and only then stores what is needed to undo both.
The walk is the run of its steps in the order the code takes them: the buffer of an inner node, a
leaf, the decoded hash of a child. A step passes, replaces a block, or fails. From the steps
alone one sees whether a failure comes before the first replacement, and that is the question.
-/

namespace CrustSworker.SealFailure

open Merkle Seal MerkleExact

variable {τ : Type}

/-! ### The directory -/

structure Directory where
  path : Bytes
  files : Disk UInt8 Bytes

def blockName (blockNum : Nat) (hash : Bytes) : Bytes := decNat blockNum ++ str "_" ++ hash

def nameIn (path full : Bytes) : Bytes := full.drop (path.length + 1)

theorem nameIn_blockPath (path : Bytes) (k : Nat) (hash : Bytes) :
    nameIn path (blockPath path k hash) = blockName k hash := by
  have hsplit : blockPath path k hash = (path ++ str "/") ++ blockName k hash := by
    simp only [blockPath, blockName, List.append_assoc]
  have hlen : path.length + 1 = (path ++ str "/").length := by
    rw [List.length_append]
    rfl
  rw [nameIn, hsplit, hlen, List.drop_left]

theorem blockName_inj {i j : Nat} {s t : Bytes} (h : blockName i s = blockName j t) :
    i = j ∧ s = t := by
  have hmark : ¬ IsDigit 95 := by decide
  simp only [blockName, List.append_assoc] at h
  exact decNat_mark_inj hmark h

def replace (path : Bytes) (files : Disk UInt8 Bytes) (b : Block) : Disk UInt8 Bytes :=
  (files.save (nameIn path b.newPath) b.sealed).remove (nameIn path b.oldPath)

def replaceAll (path : Bytes) (files : Disk UInt8 Bytes) (bs : List Block) : Disk UInt8 Bytes :=
  bs.foldl (replace path) files

/-- A replacement that fails: nothing was saved, or a part of the data, or all of it and the old
file could not be deleted. -/
def replaceFailed (path : Bytes) (files : Disk UInt8 Bytes) (b : Block) (left : Option Bytes) :
    Disk UInt8 Bytes :=
  match left with
  | none => files
  | some data => files.save (nameIn path b.newPath) data

/-! ### The steps of the walk -/

inductive Step where
  | enter (p : Pos) (n : NodeInfo)
  | leaf (p : Pos) (n : NodeInfo)
  | hashed (p : Pos)

mutual

def steps (p : Pos) : Tree → List Step
  | .node n links =>
    if n.size = 0 then []
    else if n.linksNum = 0 then [.leaf p n]
    else .enter p n :: stepsOf p 0 links

def stepsOf (p : Pos) (i : Nat) : List Tree → List Step
  | [] => []
  | t :: ts => steps (i :: p) t ++ .hashed (i :: p) :: stepsOf p (i + 1) ts

end

structure Replacement where
  oldHash : Bytes
  newHash : Bytes
  data : Bytes
  sealed : Bytes

inductive Outcome where
  | passed
  | aborted
  | replaced (r : Replacement)
  | failed (status : CrustStatus) (attempt : Option Replacement)

def withReplace (env : Pos → NodeEnv) (r : Pos → CrustStatus) : Pos → NodeEnv :=
  fun q => { env q with replaceFile := r q }

section
variable (sha256 : Bytes → Hash) (mem : Mem) (env : Pos → NodeEnv)

/-- What a leaf that gets as far as its replacement replaces. -/
def leafReplacement (p : Pos) (n : NodeInfo) : Option Replacement :=
  (sealLeaf sha256 mem (withReplace env fun _ => .success) [] p n ⟨[], 0, 0, []⟩).bind
    fun r => r.2.1.blocks.head?.map fun b => ⟨n.hash, r.2.2, b.data, b.sealed⟩

def leafOutcome (p : Pos) (n : NodeInfo) : Outcome :=
  match leafReplacement sha256 mem env p n with
  | some r =>
    if (env p).replaceFile ≠ .success then .failed (env p).replaceFile (some r)
    else .replaced r
  | none =>
    match sealLeaf sha256 mem env [] p n ⟨[], 0, 0, []⟩ with
    | none => .aborted
    | some (status, _, _) => if status = .success then .passed else .failed status none

def outcome : Step → Outcome
  | .enter p n =>
    if ¬ encMalloc (env p).mallocSubHashs (sizeT (n.linksNum * hashLength)) then
      .failed .mallocFailed none
    else .passed
  | .leaf p n => leafOutcome sha256 mem env p n
  | .hashed p => if ¬ (env p).mallocNewHash then .failed .mallocFailed none else .passed

def newBlock (path : Bytes) (blockNum : Nat) (r : Replacement) : Block :=
  ⟨blockPath path blockNum r.oldHash, blockPath path blockNum r.newHash, r.data, r.sealed⟩

/-- The run of the steps from a block number: the status, the replaced blocks, and the block the
failing step was about to replace. -/
def run (path : Bytes) : List Step → Nat → Option (CrustStatus × List Block × Option Block)
  | [], _ => some (.success, [], none)
  | s :: ss, k =>
    match outcome sha256 mem env s with
    | .passed => run path ss k
    | .aborted => none
    | .replaced b =>
      (run path ss (k + 1)).map fun r => (r.1, newBlock path k b :: r.2.1, r.2.2)
    | .failed status attempt => some (status, [], attempt.map (newBlock path k))

end

section
variable {sha256 : Bytes → Hash} {mem : Mem} {env : Pos → NodeEnv} {path : Bytes}

/-- A computation at a leaf, given how replacements go, the directory and what was walked before,
ends before its replacement, with a status or an abort, or it gets to it with data and their
sealed form. -/
inductive Ends (sha256 : Bytes → Hash) (e : NodeEnv) (p : Pos) (n : NodeInfo)
    (f : (Pos → CrustStatus) → Bytes → Walk → Option Sealed) : Prop
  | exits (status : CrustStatus) (h : ∀ r path w, f r path w = some (status, w, n.hash))
  | aborts (h : ∀ r path w, f r path w = none)
  | replaces (data out : Bytes) (h : ∀ r path w, f r path w =
      let newHash := hexstringSafeWith e.mallocHexHash (sgxSha256Msg sha256 out).val
      if r p ≠ .success then some (r p, w, n.hash)
      else some (.success,
        { tree := w.tree ++ leafHead ++ decInt n.linksNum ++ str "," ++ nodeTail newHash out.length
          nodeSize := w.nodeSize + out.length
          blockNum := w.blockNum + 1
          blocks := w.blocks ++ [newBlock path w.blockNum ⟨n.hash, newHash, data, out⟩] },
        newHash))

theorem sealBlock_ends (sha256 : Bytes → Hash) (env : Pos → NodeEnv) (p : Pos) (n : NodeInfo)
    (data : Bytes) :
    Ends sha256 (env p) p n fun r path w => sealBlock sha256 (withReplace env r) path p n w data := by
  by_cases hm : (env p).mallocSealed = true
  · have hmrsigner : ∀ r, sealDataMrsigner (withReplace env r p) data =
        match (env p).sgxSealData data with
        | none => some (.sealDataFailed, [])
        | some out => some (.success, out) := fun r => if_neg (not_not.mpr hm)
    cases hsgx : (env p).sgxSealData data with
    | none =>
      refine .exits .sealDataFailed fun r path w => ?_
      rw [sealBlock, hmrsigner, hsgx]
    | some out =>
      refine .replaces data out fun r path w => ?_
      rw [sealBlock, hmrsigner, hsgx]
      rfl
  · refine .aborts fun r path w => ?_
    have hmrsigner : sealDataMrsigner (withReplace env r p) data = none := if_pos hm
    rw [sealBlock, hmrsigner]

theorem sealLeaf_ends (sha256 : Bytes → Hash) (mem : Mem) (env : Pos → NodeEnv) (p : Pos)
    (n : NodeInfo) :
    Ends sha256 (env p) p n fun r path w => sealLeaf sha256 mem (withReplace env r) path p n w := by
  have hget : ∀ r, (withReplace env r p).getStorageFile = (env p).getStorageFile := fun _ => rfl
  have hdata : ∀ r, (withReplace env r p).mallocData = (env p).mallocData := fun _ => rfl
  have horg : ∀ r, (withReplace env r p).mallocOrgHash = (env p).mallocOrgHash := fun _ => rfl
  simp only [sealLeaf, hget, hdata, horg]
  cases (env p).getStorageFile with
  | mk status file =>
  cases file with
  | none => exact .exits status fun _ _ _ => rfl
  | some data =>
    dsimp only
    by_cases hst : status = .success
    · by_cases hsize : n.dataSize = Int.bmod data.length (2 ^ 64)
      · by_cases hmalloc : encMalloc (env p).mallocData data.length = true
        · simp only [hst, hsize, hmalloc, ne_eq, not_true_eq_false, if_false]
          cases hexStringToBytes n.hash with
          | none => exact .exits .mallocFailed fun _ _ _ => rfl
          | some orgHash =>
            dsimp only
            by_cases hm : (env p).mallocOrgHash = true
            · by_cases hsha : mem.read orgHash 32 = sgxSha256Msg sha256 data
              · simp only [hm, hsha, not_true_eq_false, if_false]
                exact sealBlock_ends sha256 env p n data
              · exact .exits .storageUnexpectedFileBlock fun _ _ _ => by
                  rw [if_neg (not_not.mpr hm), if_pos hsha]
            · exact .exits .mallocFailed fun _ _ _ => if_pos hm
        · exact .exits .success fun _ _ _ => by
            rw [if_neg (not_not.mpr hst), if_neg (not_not.mpr hsize), if_pos hmalloc]
      · exact .exits .storageNewFileSizeError fun _ _ _ => by
          rw [if_neg (not_not.mpr hst), if_pos hsize]
    · exact .exits status fun _ _ _ => if_pos hst

def seen (r : Sealed) : CrustStatus × Nat × List Block := (r.1, r.2.1.blockNum, r.2.1.blocks)

def onto (w : Walk) (r : CrustStatus × List Block × Option Block) : CrustStatus × Nat × List Block :=
  (r.1, w.blockNum + r.2.1.length, w.blocks ++ r.2.1)

theorem sealLeaf_run (p : Pos) (n : NodeInfo) (w : Walk) :
    (sealLeaf sha256 mem env path p n w).map seen =
      (run sha256 mem env path [.leaf p n] w.blockNum).map (onto w) := by
  have hself : sealLeaf sha256 mem env path p n w =
      sealLeaf sha256 mem (withReplace env fun q => (env q).replaceFile) path p n w := rfl
  have hself' : sealLeaf sha256 mem env [] p n ⟨[], 0, 0, []⟩ =
      sealLeaf sha256 mem (withReplace env fun q => (env q).replaceFile) [] p n ⟨[], 0, 0, []⟩ := rfl
  simp only [run, outcome, leafOutcome, leafReplacement]
  cases sealLeaf_ends sha256 mem env p n with
  | exits status h =>
    rw [hself, h, h, hself', h]
    by_cases hst : status = .success
    · simp [seen, onto, hst]
    · simp [seen, onto, hst]
  | aborts h =>
    rw [hself, h, h, hself', h]
    rfl
  | replaces data out h =>
    rw [hself, h, h]
    by_cases hr : (env p).replaceFile = .success
    · simp [seen, onto, hr, newBlock]
    · simp [seen, onto, hr]

theorem outcome_failed {s : Step} {status : CrustStatus} {attempt : Option Replacement}
    (h : outcome sha256 mem env s = .failed status attempt) : status ≠ .success := by
  cases s with
  | enter p n =>
    rw [outcome] at h
    split_ifs at h
    cases h
    exact CrustStatus.noConfusion
  | leaf p n =>
    rw [outcome, leafOutcome] at h
    split at h
    · split_ifs at h with hr
      cases h
      exact hr
    · split at h
      · cases h
      · split_ifs at h with hst
        cases h
        exact hst
  | hashed p =>
    rw [outcome] at h
    split_ifs at h
    cases h
    exact CrustStatus.noConfusion

theorem run_append (ss ts : List Step) (k : Nat) :
    run sha256 mem env path (ss ++ ts) k =
      (run sha256 mem env path ss k).bind fun r =>
        if r.1 = .success then
          (run sha256 mem env path ts (k + r.2.1.length)).map fun q => (q.1, r.2.1 ++ q.2.1, q.2.2)
        else some r := by
  induction ss generalizing k with
  | nil => simp [run]
  | cons s ss ih =>
    rw [List.cons_append, run, run]
    cases hs : outcome sha256 mem env s with
    | passed => exact ih k
    | aborted => rfl
    | replaced b =>
      dsimp only
      rw [ih (k + 1)]
      cases run sha256 mem env path ss (k + 1) with
      | none => rfl
      | some r =>
        simp only [Option.bind_some, Option.map_some, List.length_cons]
        have hk : k + 1 + r.2.1.length = k + (r.2.1.length + 1) := by omega
        rw [hk]
        by_cases hr : r.1 = .success
        · rw [if_pos hr, if_pos hr, Option.map_map]
          rfl
        · rw [if_neg hr, if_neg hr]
          rfl
    | failed status attempt =>
      exact (if_neg (outcome_failed hs)).symm

mutual

theorem sealTree_run (p : Pos) (w : Walk) (t : Tree) :
    (sealTree sha256 mem env path p w t).map seen =
      (run sha256 mem env path (steps p t) w.blockNum).map (onto w) := by
  match t with
  | .node n links =>
    rw [sealTree, steps]
    by_cases hsize : n.size = 0
    · rw [if_pos hsize, if_pos hsize]
      simp [run, seen, onto]
    rw [if_neg hsize, if_neg hsize]
    by_cases hleaf : n.linksNum = 0
    · rw [if_pos hleaf, if_pos hleaf]
      exact sealLeaf_run p n w
    rw [if_neg hleaf, if_neg hleaf, run, outcome]
    dsimp only
    by_cases hm : encMalloc (env p).mallocSubHashs (sizeT (n.linksNum * hashLength)) = true
    · rw [if_neg (not_not.mpr hm), if_neg (not_not.mpr hm)]
      have hlinks := sealLinks_run p n.linksNum 0
        { w with tree := w.tree ++ str "\x7b\"" ++ mtLinks ++ str "\": [", nodeSize := 0 } links
      refine Eq.trans ?_ hlinks
      cases sealLinks sha256 mem env path p n.linksNum 0
        { w with tree := w.tree ++ str "\x7b\"" ++ mtLinks ++ str "\": [", nodeSize := 0 } links with
      | none => rfl
      | some r =>
        obtain ⟨status, c, sub⟩ := r
        cases status with
        | success => rfl
        | _ => rfl
    · rw [if_pos hm, if_pos hm]
      simp [seen, onto]

theorem sealLinks_run (p : Pos) (linksNum : Int) (i : Nat) (w : Walk) (ts : List Tree) :
    (sealLinks sha256 mem env path p linksNum i w ts).map seen =
      (run sha256 mem env path (stepsOf p i ts) w.blockNum).map (onto w) := by
  match ts with
  | [] => simp [sealLinks, stepsOf, run, seen, onto]
  | t :: ts =>
    have htree := sealTree_run (i :: p) w t
    rw [sealLinks, stepsOf, run_append]
    cases hrun : run sha256 mem env path (steps (i :: p) t) w.blockNum with
    | none =>
      rw [hrun, Option.map_none, Option.map_eq_none_iff] at htree
      rw [htree]
      rfl
    | some r =>
      rw [hrun, Option.map_some, Option.map_eq_some_iff] at htree
      obtain ⟨⟨status, w1, hash⟩, hwalk, hseen⟩ := htree
      simp only [seen, onto, Prod.mk.injEq] at hseen
      obtain ⟨rfl, hnum, hblocks⟩ := hseen
      rw [hwalk, Option.bind_some]
      by_cases hst : r.1 = .success
      · rw [hst, if_pos rfl, run, outcome]
        dsimp only
        by_cases hm : (env (i :: p)).mallocNewHash = true
        · rw [if_neg (not_not.mpr hm), if_neg (not_not.mpr hm)]
          dsimp only
          generalize hw2 : (if (i : Int) ≠ linksNum - 1 then { w1 with tree := w1.tree ++ str "," }
            else w1) = w2
          -- The comma only changes the text.
          have hnum2 : w2.blockNum = w1.blockNum := by
            rw [← hw2]
            split_ifs <;> rfl
          have hblocks2 : w2.blocks = w1.blocks := by
            rw [← hw2]
            split_ifs <;> rfl
          have hlinks := sealLinks_run p linksNum (i + 1) w2 ts
          rw [hnum2, hnum] at hlinks
          have hrest : ((run sha256 mem env path (stepsOf p (i + 1) ts)
              (w.blockNum + r.2.1.length)).map fun q => (q.1, r.2.1 ++ q.2.1, q.2.2)).map (onto w) =
                (sealLinks sha256 mem env path p linksNum (i + 1) w2 ts).map seen := by
            rw [hlinks, Option.map_map]
            congr 1
            funext q
            simp only [onto, Function.comp_apply, hnum2, hblocks2, hnum, hblocks, List.length_append,
              List.append_assoc, Nat.add_assoc]
          rw [hrest]
          cases sealLinks sha256 mem env path p linksNum (i + 1) w2 ts with
          | none => rfl
          | some q => rfl
        · rw [if_pos hm, if_pos hm]
          simp [seen, onto, hnum, hblocks]
      · rw [if_neg hst]
        obtain ⟨status, bs, attempt⟩ := r
        cases status with
        | success => exact absurd rfl hst
        | _ => simp [seen, onto, hnum, hblocks]

end

/-! ### What a run leaves in the directory -/

def Numbered (path : Bytes) (ss : List Step) (k : Nat) (b : Block) : Prop :=
  ∃ j r, k ≤ j ∧ b = newBlock path j r ∧ ∃ p n, .leaf p n ∈ ss ∧ n.hash = r.oldHash

theorem Numbered.mono {ss ts : List Step} {k l : Nat} {b : Block} (h : Numbered path ss l b)
    (hk : k ≤ l) (hs : ∀ s ∈ ss, s ∈ ts) : Numbered path ts k b := by
  obtain ⟨j, r, hj, hb, p, n, hmem, hn⟩ := h
  exact ⟨j, r, hk.trans hj, hb, p, n, hs _ hmem, hn⟩

theorem leafReplacement_hash {p : Pos} {n : NodeInfo} {r : Replacement}
    (h : leafReplacement sha256 mem env p n = some r) : n.hash = r.oldHash := by
  obtain ⟨s, -, hs⟩ := Option.bind_eq_some_iff.mp h
  obtain ⟨b, -, rfl⟩ := Option.map_eq_some_iff.mp hs
  rfl

theorem leafOutcome_hash {p : Pos} {n : NodeInfo} {r : Replacement}
    (h : leafOutcome sha256 mem env p n = .replaced r ∨
      ∃ status, leafOutcome sha256 mem env p n = .failed status (some r)) :
    n.hash = r.oldHash := by
  unfold leafOutcome at h
  rcases h with h | ⟨status, h⟩
  · split at h
    · rename_i hr
      split_ifs at h
      cases h
      exact leafReplacement_hash hr
    · split at h
      · cases h
      · split_ifs at h
  · split at h
    · rename_i hr
      split_ifs at h
      cases h
      exact leafReplacement_hash hr
    · split at h
      · cases h
      · split_ifs at h
        cases h

theorem outcome_leaf {s : Step} {r : Replacement}
    (h : outcome sha256 mem env s = .replaced r ∨
      ∃ status, outcome sha256 mem env s = .failed status (some r)) :
    ∃ p n, s = .leaf p n ∧ n.hash = r.oldHash := by
  cases s with
  | enter p n =>
    rw [outcome] at h
    split_ifs at h
    · rcases h with h | ⟨status, h⟩ <;> cases h
    · rcases h with h | ⟨status, h⟩ <;> cases h
  | leaf p n => exact ⟨p, n, rfl, leafOutcome_hash h⟩
  | hashed p =>
    rw [outcome] at h
    split_ifs at h
    · rcases h with h | ⟨status, h⟩ <;> cases h
    · rcases h with h | ⟨status, h⟩ <;> cases h

theorem run_numbered {ss : List Step} {k : Nat} {status : CrustStatus} {bs : List Block}
    {attempt : Option Block} (h : run sha256 mem env path ss k = some (status, bs, attempt)) :
    (∀ b ∈ bs, Numbered path ss k b) ∧ ∀ b, attempt = some b → Numbered path ss k b := by
  induction ss generalizing k bs with
  | nil =>
    cases h
    exact ⟨fun b hb => absurd hb List.not_mem_nil, fun b hb => by cases hb⟩
  | cons s ss ih =>
    have htail : ∀ t ∈ ss, t ∈ s :: ss := fun t ht => List.mem_cons_of_mem _ ht
    rw [run] at h
    cases hs : outcome sha256 mem env s with
    | passed =>
      rw [hs] at h
      obtain ⟨hall, hatt⟩ := ih h
      exact ⟨fun b hb => (hall b hb).mono le_rfl htail, fun b hb => (hatt b hb).mono le_rfl htail⟩
    | aborted =>
      rw [hs] at h
      cases h
    | replaced b =>
      rw [hs] at h
      obtain ⟨⟨st, bs', att⟩, hrun, heq⟩ := Option.map_eq_some_iff.mp h
      cases heq
      obtain ⟨hall, hatt⟩ := ih hrun
      obtain ⟨p, n, rfl, hn⟩ := outcome_leaf (.inl hs)
      refine ⟨fun b hb => ?_, fun b hb => (hatt b hb).mono (Nat.le_succ k) htail⟩
      rcases List.mem_cons.mp hb with rfl | hb
      · exact ⟨k, _, le_rfl, rfl, p, n, List.mem_cons_self, hn⟩
      · exact (hall b hb).mono (Nat.le_succ k) htail
    | failed st att =>
      rw [hs] at h
      cases h
      refine ⟨fun b hb => absurd hb List.not_mem_nil, fun b hb => ?_⟩
      obtain ⟨r, hatt, rfl⟩ := Option.map_eq_some_iff.mp hb
      rw [hatt] at hs
      obtain ⟨p, n, rfl, hn⟩ := outcome_leaf (.inr ⟨_, hs⟩)
      exact ⟨k, r, le_rfl, rfl, p, n, List.mem_cons_self, hn⟩

theorem replace_below {ss : List Step} {k i : Nat} {b : Block} (hb : Numbered path ss k b)
    (hi : i < k) (files : Disk UInt8 Bytes) (hash : Bytes) :
    replace path files b (blockName i hash) = files (blockName i hash) := by
  obtain ⟨j, r, hj, rfl, -⟩ := hb
  have hne : ∀ t, blockName i hash ≠ blockName j t := fun t h => by
    have := (blockName_inj h).1
    omega
  rw [replace, newBlock]
  dsimp only
  rw [nameIn_blockPath, nameIn_blockPath, Disk.remove_of_ne (hne _), Disk.save_of_ne (hne _)]

theorem replaceAll_below {ss : List Step} {k i : Nat} {bs : List Block}
    (hbs : ∀ b ∈ bs, Numbered path ss k b) (hi : i < k) (files : Disk UInt8 Bytes)
    (hash : Bytes) :
    replaceAll path files bs (blockName i hash) = files (blockName i hash) := by
  induction bs generalizing files with
  | nil => rfl
  | cons b bs ih =>
    rw [replaceAll, List.foldl_cons, ← replaceAll,
      ih (fun c hc => hbs c (List.mem_cons_of_mem _ hc)),
      replace_below (hbs b List.mem_cons_self) hi]

theorem replaceFailed_below {ss : List Step} {k i : Nat} {b : Block}
    (hb : Numbered path ss k b) (hi : i < k) (files : Disk UInt8 Bytes) (left : Option Bytes)
    (hash : Bytes) :
    replaceFailed path files b left (blockName i hash) = files (blockName i hash) := by
  obtain ⟨j, r, hj, rfl, -⟩ := hb
  have hne : ∀ t, blockName i hash ≠ blockName j t := fun t h => by
    have := (blockName_inj h).1
    omega
  cases left with
  | none => rfl
  | some c =>
    rw [replaceFailed, newBlock]
    dsimp only
    rw [nameIn_blockPath, Disk.save_of_ne (hne _)]

end

/-! ### The call and the directory -/

section
variable (sha256 : Bytes → Hash) (mem : Mem) (env : Pos → NodeEnv)

mutual

def idleHash (p : Pos) : Tree → Bytes
  | .node n links =>
    if n.linksNum = 0 then n.hash
    else hexstringSafeWith (env p).mallocHexHash (sgxSha256Msg sha256 (idleHashs p 0 links)).val

def idleHashs (p : Pos) (i : Nat) : List Tree → Bytes
  | [] => []
  | t :: ts => (hexHash mem (idleHash (i :: p) t)).val ++ idleHashs p (i + 1) ts

end

end

def IsBlockFile (tree : Tree) (name : Bytes) : Prop :=
  ∃ k, ∃ l ∈ leaves [] tree, name = blockName k l.2.hash

structure Kept (tree : Tree) (dir dir' : Directory) : Prop where
  path : dir'.path = dir.path
  files : ∀ name data, IsBlockFile tree name → dir.files name = some data →
    dir'.files name = some data

/-- The directory behind a walk that has failed after these replacements, on its way to the next
one or not. -/
def afterFailedWalk (dir : Directory) (left : Option Bytes) (bs : List Block) (attempt : Option Block) :
    Directory :=
  let files := replaceAll dir.path dir.files bs
  ⟨dir.path, match attempt with
    | none => files
    | some b => replaceFailed dir.path files b left⟩

section
variable (sha256 : Bytes → Hash) (mem : Mem) (env : SealEnv)

/-- The directory when the call has returned; `left` is what a replacement that failed has put
under the new name. -/
def directoryAfter (wl : Workload τ) (treeJson : JSON) (left : Option Bytes) (dir : Directory) :
    Directory :=
  if wl.checkedFiles.length + wl.newFiles.length ≥ fileNumberUpperLimit ∨ treeJson.size = 0 then dir
  else if validateMerkletree sha256 mem env.merkle [] (treeOf treeJson) ≠ .success then dir
  else
    match sealTree sha256 mem env.node dir.path [] ⟨[], 0, 0, []⟩ (treeOf treeJson) with
    | none => dir
    | some (status, w, newRoot) =>
      if status = .success then
        ⟨if env.renameDir = .success then renamedPath dir.path (treeOf treeJson).info.hash newRoot
          else dir.path, replaceAll dir.path dir.files w.blocks⟩
      else afterFailedWalk dir left w.blocks
          ((run sha256 mem env.node dir.path (steps [] (treeOf treeJson)) 0).bind (·.2.2))

/-- What comes behind the walk succeeds, once the new root hash is decoded. -/
def Finishes (n : NodeInfo) : Prop :=
  env.renameDir = .success ∧ hexStringToBytes n.hash ≠ none ∧ env.mallocNewRoot = true ∧
    env.mallocOrgRoot = true ∧ env.persistTree = .success ∧ env.persistMeta = .success

/-- A replacement that fails destroys nothing: it left nothing, or it wrote under a name that is
not that of a block file with other data. -/
def Harmless (tree : Tree) (dir : Directory) (left : Option Bytes) (b : Block) : Prop :=
  ∀ data old, left = some data → IsBlockFile tree (nameIn dir.path b.newPath) →
    dir.files (nameIn dir.path b.newPath) = some old → old = data

def NeverFails : List Step → Prop
  | [] => True
  | s :: ss =>
    match outcome sha256 mem env.node s with
    | .failed _ _ => False
    | .aborted => True
    | _ => NeverFails ss

/-- Steps of a walk that do no harm: a step fails before the first replacement, or from the first
replacement on nothing fails. -/
def Spared (tree : Tree) (dir : Directory) (left : Option Bytes) : List Step → Prop
  | [] => env.renameDir ≠ .success ∨
      (hexStringToBytes (idleHash sha256 mem env.node [] tree) ≠ none ∧ Finishes env tree.info) ∨
      renamedPath dir.path tree.info.hash (idleHash sha256 mem env.node [] tree) = dir.path
  | s :: ss =>
    match outcome sha256 mem env.node s with
    | .passed => Spared tree dir left ss
    | .aborted => True
    | .replaced _ => NeverFails sha256 mem env ss ∧ (env.node []).mallocHexHash = true ∧
        Finishes env tree.info
    | .failed _ attempt => ∀ r, attempt = some r → Harmless tree dir left (newBlock dir.path 0 r)

end

section
variable {sha256 : Bytes → Hash} {mem : Mem} {env : SealEnv} {tree : Tree} {dir : Directory}
  {left : Option Bytes} {ss : List Step} {k : Nat} {status : CrustStatus} {bs : List Block}
  {attempt : Option Block}

theorem neverFails_iff_run
    (h : run sha256 mem env.node dir.path ss k = some (status, bs, attempt)) :
    NeverFails sha256 mem env ss ↔ status = .success := by
  induction ss generalizing k bs with
  | nil =>
    cases h
    exact ⟨fun _ => rfl, fun _ => trivial⟩
  | cons s ss ih =>
    rw [run] at h
    rw [NeverFails]
    cases hs : outcome sha256 mem env.node s with
    | passed =>
      rw [hs] at h
      exact ih h
    | aborted =>
      rw [hs] at h
      cases h
    | replaced b =>
      rw [hs] at h
      obtain ⟨r, hrun, heq⟩ := Option.map_eq_some_iff.mp h
      cases heq
      exact ih hrun
    | failed st att =>
      rw [hs] at h
      cases h
      exact ⟨False.elim, fun h => outcome_failed hs h⟩

theorem spared_iff_run
    (h : run sha256 mem env.node dir.path ss 0 = some (status, bs, attempt)) :
    Spared sha256 mem env tree dir left ss ↔
      (status = .success → bs = [] → env.renameDir ≠ .success ∨
        (hexStringToBytes (idleHash sha256 mem env.node [] tree) ≠ none ∧ Finishes env tree.info) ∨
        renamedPath dir.path tree.info.hash (idleHash sha256 mem env.node [] tree) = dir.path) ∧
      (status = .success → bs ≠ [] → (env.node []).mallocHexHash = true ∧ Finishes env tree.info) ∧
      (status ≠ .success → bs = [] ∧ ∀ b, attempt = some b → Harmless tree dir left b) := by
  induction ss with
  | nil =>
    cases h
    simp [Spared]
  | cons s ss ih =>
    rw [run] at h
    rw [Spared]
    cases hs : outcome sha256 mem env.node s with
    | passed =>
      rw [hs] at h
      exact ih h
    | aborted =>
      rw [hs] at h
      cases h
    | replaced b =>
      rw [hs] at h
      obtain ⟨r, hrun, heq⟩ := Option.map_eq_some_iff.mp h
      cases heq
      dsimp only
      rw [neverFails_iff_run hrun]
      simp only [List.cons_ne_nil, ne_eq, not_false_eq_true, false_and, imp_false, not_not]
      tauto
    | failed st att =>
      rw [hs] at h
      cases h
      have hne := outcome_failed hs
      simp only [hne, ne_eq, not_false_eq_true, true_and, false_implies, forall_const]
      constructor
      · intro hall b hb
        obtain ⟨a, ha, rfl⟩ := Option.map_eq_some_iff.mp hb
        exact hall a ha
      · intro hall a ha
        exact hall _ (by rw [ha]; rfl)

end

/-! ### A walk that seals nothing -/

section
variable {sha256 : Bytes → Hash} {mem : Mem} {env : Pos → NodeEnv} {path : Bytes}
  {alloc : Pos → MerkleAlloc}

theorem sealLeaf_idle {p : Pos} {n : NodeInfo} {w w' : Walk} {hash : Bytes}
    (h : sealLeaf sha256 mem env path p n w = some (.success, w', hash))
    (hblocks : w'.blocks = w.blocks) : hash = n.hash := by
  have hself : sealLeaf sha256 mem env path p n w =
      sealLeaf sha256 mem (withReplace env fun q => (env q).replaceFile) path p n w := rfl
  rw [hself] at h
  cases sealLeaf_ends sha256 mem env p n with
  | exits status hall =>
    rw [hall] at h
    cases h
    rfl
  | aborts hall =>
    rw [hall] at h
    cases h
  | replaces data out hall =>
    rw [hall] at h
    split_ifs at h with hr
    · exact absurd (congrArg Prod.fst (Option.some.inj h)) hr
    · cases h
      simp at hblocks

mutual

theorem sealTree_idle {p : Pos} {w w' : Walk} {hash : Bytes} (t : Tree)
    (h : sealTree sha256 mem env path p w t = some (.success, w', hash))
    (hblocks : w'.blocks = w.blocks) : hash = idleHash sha256 mem env p t := by
  match t with
  | .node n links =>
    simp only [sealTree] at h
    rw [idleHash]
    split at h
    · rename_i hn
      cases h
      rw [if_pos (n.size_zero hn)]
    split at h
    · rename_i hl
      rw [if_pos hl]
      exact sealLeaf_idle h hblocks
    rename_i hl
    rw [if_neg hl]
    split at h
    · cases h
    split at h
    · cases h
    · rename_i c sub hlinks
      cases h
      rw [sealLinks_idle links hlinks hblocks]
    · rename_i status c sub hns hlinks
      cases h
      exact absurd rfl hns

theorem sealLinks_idle {p : Pos} {linksNum : Int} {i : Nat} {w w' : Walk} {sub : Bytes}
    (ts : List Tree)
    (h : sealLinks sha256 mem env path p linksNum i w ts = some (.success, w', sub))
    (hblocks : w'.blocks = w.blocks) : sub = idleHashs sha256 mem env p i ts := by
  match ts with
  | [] =>
    rw [sealLinks] at h
    cases h
    rfl
  | t :: ts =>
    simp only [sealLinks] at h
    split at h
    · cases h
    · rename_i w1 hash htree
      split at h
      · cases h
      split at h
      · cases h
      · rename_i status w2 sub' hlinks
        cases h
        -- Neither part of the walk has sealed a block.
        obtain ⟨bs, hgrew⟩ := sealTree_grew t htree
        obtain ⟨cs, hgrew'⟩ := sealLinks_grew ts hlinks
        have hcomma : (if (i : Int) ≠ linksNum - 1 then { w1 with tree := w1.tree ++ str "," }
            else w1).blocks = w1.blocks := by
          split_ifs <;> rfl
        have hbs : bs ++ cs = [] := by
          have heq := hgrew'.blocks
          rw [hcomma, hgrew.blocks, hblocks, List.append_assoc] at heq
          exact List.append_right_eq_self.mp heq.symm
        obtain ⟨rfl, rfl⟩ := List.append_eq_nil_iff.mp hbs
        rw [sealTree_idle t htree (by rw [hgrew.blocks, List.append_nil]),
          sealLinks_idle ts hlinks (by rw [hgrew'.blocks, List.append_nil]), idleHashs]
    · rename_i status w1 hash hns htree
      cases h
      exact absurd rfl hns

end

theorem sealTree_root {p : Pos} {w w' : Walk} {hash : Bytes} {t : Tree}
    (h : sealTree sha256 mem env path p w t = some (.success, w', hash)) :
    (hash = t.info.hash ∧ w'.blocks = w.blocks) ∨
      ∃ x : Hash, hash = hexstringSafeWith (env p).mallocHexHash x.val := by
  cases t with
  | node n links =>
    simp only [sealTree] at h
    split at h
    · cases h
      exact .inl ⟨rfl, rfl⟩
    split at h
    · have hself : sealLeaf sha256 mem env path p n w =
          sealLeaf sha256 mem (withReplace env fun q => (env q).replaceFile) path p n w := rfl
      rw [hself] at h
      cases sealLeaf_ends sha256 mem env p n with
      | exits status hall =>
        rw [hall] at h
        cases h
        exact .inl ⟨rfl, rfl⟩
      | aborts hall =>
        rw [hall] at h
        cases h
      | replaces data out hall =>
        rw [hall] at h
        dsimp only at h
        split_ifs at h with hr
        · exact absurd (congrArg Prod.fst (Option.some.inj h)) hr
        · cases h
          exact .inr ⟨_, rfl⟩
    split at h
    · cases h
    split at h
    · cases h
    · cases h
      exact .inr ⟨_, rfl⟩
    · rename_i status c sub hns hlinks
      cases h
      exact absurd rfl hns

theorem decoded_with (served : Bool) (x : Hash) :
    hexStringToBytes (hexstringSafeWith served x.val) ≠ none ↔ served = true := by
  rw [hexstringSafeWith_hash]
  cases served with
  | true =>
    rw [if_pos rfl, JsonParse.hexStringToBytes_hexstringSafe (byteArr_ne_nil x (by decide))]
    exact iff_of_true (Option.some_ne_none _) rfl
  | false => exact iff_of_false (not_not.mpr rfl) Bool.false_ne_true

/-! ### Which directories are kept -/

mutual

theorem leaf_of_step {p q : Pos} {n : NodeInfo} (t : Tree) (h : Step.leaf q n ∈ steps p t) :
    (q, n) ∈ leaves p t := by
  match t with
  | .node m links =>
    rw [steps] at h
    rw [leaves]
    split_ifs at h with hsize hleaf
    · exact absurd h List.not_mem_nil
    · cases List.mem_singleton.mp h
      rw [if_pos hleaf]
      exact List.mem_singleton.mpr rfl
    · rw [if_neg hleaf]
      rcases List.mem_cons.mp h with h | h
      · cases h
      · exact leaf_of_steps links h

theorem leaf_of_steps {p q : Pos} {i : Nat} {n : NodeInfo} (ts : List Tree)
    (h : Step.leaf q n ∈ stepsOf p i ts) : (q, n) ∈ leavesOf p i ts := by
  match ts with
  | [] => exact absurd h List.not_mem_nil
  | t :: ts =>
    rw [stepsOf] at h
    rw [leavesOf]
    rcases List.mem_append.mp h with h | h
    · exact List.mem_append_left _ (leaf_of_step t h)
    rcases List.mem_cons.mp h with h | h
    · cases h
    · exact List.mem_append_right _ (leaf_of_steps ts h)

end

theorem run_first {ss : List Step} {k : Nat} {status : CrustStatus} {b : Block} {bs : List Block}
    {attempt : Option Block} (h : run sha256 mem env path ss k = some (status, b :: bs, attempt)) :
    (∃ p n r, .leaf p n ∈ ss ∧ n.hash = r.oldHash ∧ b = newBlock path k r) ∧
      (∀ c ∈ bs, Numbered path ss (k + 1) c) ∧
      ∀ c, attempt = some c → Numbered path ss (k + 1) c := by
  induction ss with
  | nil => cases h
  | cons s ss ih =>
    have htail : ∀ t ∈ ss, t ∈ s :: ss := fun t ht => List.mem_cons_of_mem _ ht
    rw [run] at h
    cases hs : outcome sha256 mem env s with
    | passed =>
      rw [hs] at h
      obtain ⟨⟨p, n, r, hmem, hn, hb⟩, hall, hatt⟩ := ih h
      exact ⟨⟨p, n, r, htail _ hmem, hn, hb⟩, fun c hc => (hall c hc).mono le_rfl htail,
        fun c hc => (hatt c hc).mono le_rfl htail⟩
    | aborted =>
      rw [hs] at h
      cases h
    | replaced b =>
      rw [hs] at h
      obtain ⟨⟨st, bs', att⟩, hrun, heq⟩ := Option.map_eq_some_iff.mp h
      cases heq
      obtain ⟨hall, hatt⟩ := run_numbered hrun
      obtain ⟨p, n, rfl, hn⟩ := outcome_leaf (.inl hs)
      exact ⟨⟨p, n, b, List.mem_cons_self, hn, rfl⟩, fun c hc => (hall c hc).mono le_rfl htail,
        fun c hc => (hatt c hc).mono le_rfl htail⟩
    | failed st att =>
      rw [hs] at h
      cases h

theorem not_kept {t : Tree} {dir dir' : Directory} {status : CrustStatus} {b : Block}
    {bs : List Block} {attempt : Option Block} (left : Option Bytes)
    (hrun : run sha256 mem env dir.path (steps [] t) 0 = some (status, b :: bs, attempt))
    (hread : dir.files (nameIn dir.path b.oldPath) = some b.data)
    (hfiles : dir'.files = replaceAll dir.path dir.files (b :: bs) ∨
      ∃ c, attempt = some c ∧
        dir'.files = replaceFailed dir.path (replaceAll dir.path dir.files (b :: bs)) c left) :
    ¬ Kept t dir dir' := by
  obtain ⟨⟨p, n, r, hmem, hn, rfl⟩, hbs, hattempt⟩ := run_first hrun
  intro hkept
  have hname : nameIn dir.path (newBlock dir.path 0 r).oldPath = blockName 0 n.hash := by
    rw [hn]
    exact nameIn_blockPath _ _ _
  rw [hname] at hread
  have hkeep := hkept.files _ _ ⟨0, (p, n), leaf_of_step t hmem, rfl⟩ hread
  have hgone : replaceAll dir.path dir.files (newBlock dir.path 0 r :: bs)
      (blockName 0 n.hash) = none := by
    rw [replaceAll, List.foldl_cons, ← replaceAll, replaceAll_below hbs Nat.one_pos, replace, hname]
    exact Disk.remove_self
  rcases hfiles with hfiles | ⟨c, hc, hfiles⟩
  · rw [hfiles, hgone] at hkeep
    cases hkeep
  · rw [hfiles, replaceFailed_below (hattempt c hc) Nat.one_pos, hgone] at hkeep
    cases hkeep

theorem kept_failed_iff {t : Tree} {dir : Directory} {b : Block} {left : Option Bytes} :
    Kept t dir ⟨dir.path, replaceFailed dir.path dir.files b left⟩ ↔ Harmless t dir left b := by
  constructor
  · intro hkept data old hleft hblock hold
    have hsame : replaceFailed dir.path dir.files b left (nameIn dir.path b.newPath) = some old :=
      hkept.files _ _ hblock hold
    rw [hleft, replaceFailed, Disk.save_self] at hsame
    exact (Option.some.inj hsame).symm
  · intro hharmless
    refine ⟨rfl, fun name data hblock hdata => ?_⟩
    change replaceFailed dir.path dir.files b left name = some data
    cases left with
    | none => exact hdata
    | some c =>
      rw [replaceFailed]
      by_cases hname : name = nameIn dir.path b.newPath
      · subst hname
        rw [Disk.save_self, hharmless c data rfl hblock hdata]
      · rw [Disk.save_of_ne hname, hdata]

end

theorem addSealed_success_iff {mem : Mem} {env : SealEnv} {tag : τ} {wl : Workload τ} {path : Bytes}
    {n : NodeInfo} {w : Walk} {newRoot : Bytes} :
    (addSealed mem env tag wl path n w newRoot).status = .success ↔
      hexStringToBytes newRoot ≠ none ∧ Finishes env n := by
  unfold addSealed Finishes
  dsimp only
  by_cases hrename : env.renameDir = .success
  · rw [if_neg (not_not.mpr hrename)]
    cases hnew : hexStringToBytes newRoot with
    | none => exact ⟨fun h => CrustStatus.noConfusion h, fun h => absurd rfl h.1⟩
    | some newHash =>
    cases hn : hexStringToBytes n.hash with
    | none => exact ⟨fun h => CrustStatus.noConfusion h, fun h => absurd rfl h.2.2.1⟩
    | some orgHash =>
      dsimp only
      have hsome : ∀ x : Bytes, some x ≠ none := Option.some_ne_none
      by_cases hm : env.mallocNewRoot = true ∧ env.mallocOrgRoot = true
      · rw [if_neg (not_not.mpr hm)]
        by_cases htree : env.persistTree = .success
        · rw [if_neg (not_not.mpr htree)]
          by_cases hmeta : env.persistMeta = .success
          · rw [if_neg (not_not.mpr hmeta)]
            exact ⟨fun _ => ⟨hsome _, hrename, hsome _, hm.1, hm.2, htree, hmeta⟩, fun _ => rfl⟩
          · rw [if_pos hmeta]
            exact ⟨fun h => absurd h hmeta, fun h => absurd h.2.2.2.2.2.2 hmeta⟩
        · rw [if_pos htree]
          exact ⟨fun h => absurd h htree, fun h => absurd h.2.2.2.2.2.1 htree⟩
      · rw [if_pos hm]
        exact ⟨fun h => CrustStatus.noConfusion h,
          fun h => absurd ⟨h.2.2.2.1, h.2.2.2.2.1⟩ hm⟩
  · rw [if_pos hrename]
    exact ⟨fun h => absurd h hrename, fun h => absurd h.2.1 hrename⟩

theorem addSealed_blocks {mem : Mem} {env : SealEnv} {tag : τ} {wl : Workload τ} {path : Bytes}
    {n : NodeInfo} {w : Walk} {newRoot : Bytes} :
    (addSealed mem env tag wl path n w newRoot).blocks = w.blocks := by
  unfold addSealed
  dsimp only
  split
  · rfl
  split
  · split_ifs <;> rfl
  · rfl

section
variable {sha256 : Bytes → Hash} {mem : Mem} {env : SealEnv} {wl : Workload τ} {tag : τ}
  {treeJson : JSON} {dir : Directory} {left : Option Bytes} {w : Walk} {root : Bytes}
  {attempt : Option Block}

theorem kept_of_failed_walk {status : CrustStatus} (hst : status ≠ .success)
    (hrun : run sha256 mem env.node dir.path (steps [] (treeOf treeJson)) 0 =
      some (status, w.blocks, attempt))
    (hread : ∀ b ∈ w.blocks, dir.files (nameIn dir.path b.oldPath) = some b.data) :
    Kept (treeOf treeJson) dir (afterFailedWalk dir left w.blocks attempt) ↔
      Spared sha256 mem env (treeOf treeJson) dir left (steps [] (treeOf treeJson)) := by
  rw [spared_iff_run hrun]
  generalize w.blocks = bs at hrun hread
  cases bs with
  | nil =>
    cases attempt with
    | none =>
      have hself : Kept (treeOf treeJson) dir (afterFailedWalk dir left [] none) :=
        ⟨rfl, fun _ _ _ hdata => hdata⟩
      exact ⟨fun _ => ⟨fun h => absurd h hst, fun h => absurd h hst, fun _ => ⟨rfl, nofun⟩⟩,
        fun _ => hself⟩
    | some b =>
      have hiff : Kept (treeOf treeJson) dir (afterFailedWalk dir left [] (some b)) ↔
          Harmless (treeOf treeJson) dir left b := kept_failed_iff
      rw [hiff]
      constructor
      · intro hb
        refine ⟨fun h => absurd h hst, fun h => absurd h hst, fun _ => ⟨rfl, fun c hc => ?_⟩⟩
        rw [← Option.some.inj hc]
        exact hb
      · exact fun h => (h.2.2 hst).2 b rfl
  | cons b bs =>
    have hnot : ¬ Kept (treeOf treeJson) dir (afterFailedWalk dir left (b :: bs) attempt) := by
      refine not_kept left hrun (hread b List.mem_cons_self) ?_
      cases attempt with
      | none => exact .inl rfl
      | some c => exact .inr ⟨c, rfl, rfl⟩
    exact ⟨fun h => absurd h hnot, fun h => absurd (h.2.2 hst).1 (List.cons_ne_nil _ _)⟩

theorem kept_of_sealed
    (hseal : sealTree sha256 mem env.node dir.path [] ⟨[], 0, 0, []⟩ (treeOf treeJson) =
      some (.success, w, root))
    (hrun : run sha256 mem env.node dir.path (steps [] (treeOf treeJson)) 0 =
      some (.success, w.blocks, attempt))
    (hread : ∀ b ∈ w.blocks, dir.files (nameIn dir.path b.oldPath) = some b.data) :
    (¬ (hexStringToBytes root ≠ none ∧ Finishes env (treeOf treeJson).info) →
      Kept (treeOf treeJson) dir
      ⟨if env.renameDir = .success then renamedPath dir.path (treeOf treeJson).info.hash root
        else dir.path, replaceAll dir.path dir.files w.blocks⟩) ↔
      Spared sha256 mem env (treeOf treeJson) dir left (steps [] (treeOf treeJson)) := by
  rw [spared_iff_run hrun]
  cases hblocks : w.blocks with
  | nil =>
    have hroot : root = idleHash sha256 mem env.node [] (treeOf treeJson) :=
      sealTree_idle _ hseal hblocks
    rw [← hroot]
    have hpath : ∀ path, Kept (treeOf treeJson) dir ⟨path, replaceAll dir.path dir.files []⟩ ↔
        path = dir.path := fun path =>
      ⟨fun h => h.path, fun h => ⟨h, fun _ _ _ hdata => hdata⟩⟩
    rw [hpath]
    by_cases hrename : env.renameDir = .success
    · rw [if_pos hrename]
      simp only [hrename, ne_eq, not_true_eq_false, false_or, false_implies, and_true,
        forall_const]
      exact ⟨fun h => or_iff_not_imp_left.mpr h, fun h => or_iff_not_imp_left.mp h⟩
    · rw [if_neg hrename]
      simp [hrename]
  | cons b bs =>
    obtain ⟨x, hroot⟩ := (sealTree_root hseal).resolve_left fun hidle =>
      List.cons_ne_nil _ _ (hblocks.symm.trans hidle.2)
    have hdecoded : hexStringToBytes root ≠ none ↔ (env.node []).mallocHexHash = true := by
      rw [hroot]
      exact decoded_with _ x
    rw [hdecoded]
    rw [hblocks] at hrun hread
    have hnot : ¬ Kept (treeOf treeJson) dir
        ⟨if env.renameDir = .success then renamedPath dir.path (treeOf treeJson).info.hash root
          else dir.path, replaceAll dir.path dir.files (b :: bs)⟩ :=
      not_kept left hrun (hread b List.mem_cons_self) (.inl rfl)
    constructor
    · intro h
      refine ⟨fun _ hnil => absurd hnil (List.cons_ne_nil _ _), fun _ _ => ?_, fun h => absurd rfl h⟩
      by_contra hfin
      exact hnot (h hfin)
    · exact fun h hfin => absurd (h.2.1 rfl (List.cons_ne_nil _ _)) hfin

end

/-- A failed call leaves the directory as it was exactly when it ends before its walk, fails before
the first replacement, or does not fail from there on. -/
theorem failed_seal_keeps_iff {sha256 : Bytes → Hash} {mem : Mem} {env : SealEnv} {tag : τ}
    {wl : Workload τ} {treeText : Bytes} {treeJson : JSON} {dir : Directory} {left : Option Bytes}
    {res : SealResult τ} (hload : JsonParse.load mem treeText = .ok treeJson)
    (hvalid : validateMerkletree sha256 mem env.merkle [] (treeOf treeJson) = .success)
    (h : storageSealFile sha256 mem env tag wl treeText dir.path = some res)
    (hread : ∀ b ∈ res.blocks, dir.files (nameIn dir.path b.oldPath) = some b.data) :
    (res.status ≠ .success → Kept (treeOf treeJson) dir
        (directoryAfter sha256 mem env wl treeJson left dir) ∧ res.wl = wl) ↔
      wl.checkedFiles.length + wl.newFiles.length ≥ fileNumberUpperLimit ∨ treeJson.size = 0 ∨
        Spared sha256 mem env (treeOf treeJson) dir left (steps [] (treeOf treeJson)) := by
  have hwl : res.status ≠ .success → res.wl = wl := fun hs => storageSealFile_failed h hs
  have hself : Kept (treeOf treeJson) dir dir := ⟨rfl, fun _ _ _ hdata => hdata⟩
  rw [← or_assoc]
  unfold directoryAfter
  by_cases hearly : wl.checkedFiles.length + wl.newFiles.length ≥ fileNumberUpperLimit ∨
      treeJson.size = 0
  · rw [if_pos hearly]
    exact ⟨fun _ => .inl hearly, fun _ hs => ⟨hself, hwl hs⟩⟩
  rw [if_neg hearly, if_neg (not_not.mpr hvalid), or_iff_right hearly]
  push Not at hearly
  have hwalk : (sealTree sha256 mem env.node dir.path [] ⟨[], 0, 0, []⟩ (treeOf treeJson)).map seen =
      (run sha256 mem env.node dir.path (steps [] (treeOf treeJson)) 0).map (onto ⟨[], 0, 0, []⟩) :=
    sealTree_run [] _ _
  unfold storageSealFile at h
  dsimp only at h
  rw [if_neg (not_le.mpr hearly.1), hload] at h
  dsimp only at h
  rw [if_neg hearly.2, hvalid] at h
  dsimp only at h
  cases hseal : sealTree sha256 mem env.node dir.path [] ⟨[], 0, 0, []⟩ (treeOf treeJson) with
  | none =>
    rw [hseal] at h
    cases h
  | some r =>
    obtain ⟨status, w, root⟩ := r
    rw [hseal] at h hwalk
    obtain ⟨⟨st, bs, attempt⟩, hrun, honto⟩ := Option.map_eq_some_iff.mp hwalk.symm
    simp only [onto, seen, List.nil_append, Prod.mk.injEq] at honto
    obtain ⟨rfl, -, rfl⟩ := honto
    dsimp only at h ⊢
    by_cases hst : st = .success
    · subst hst
      rw [if_pos rfl]
      cases h
      rw [addSealed_blocks] at hread
      have hfinishes : (addSealed mem env tag wl dir.path (treeOf treeJson).info w root).status =
          .success ↔ hexStringToBytes root ≠ none ∧ Finishes env (treeOf treeJson).info :=
        addSealed_success_iff
      rw [← kept_of_sealed hseal hrun hread, ← hfinishes]
      exact forall_congr' fun hs => and_iff_left (hwl hs)
    · have hres : res = ⟨st, wl, [], [], w.blocks⟩ := by
        cases st with
        | success => exact absurd rfl hst
        | _ => exact (Option.some.inj h).symm
      rw [if_neg hst, hrun, Option.bind_some]
      rw [hres] at hread hwl ⊢
      rw [← kept_of_failed_walk hst hrun hread]
      exact ⟨fun h => (h hst).1, fun h _ => ⟨h, rfl⟩⟩

/-! ### Two blocks, the second of them broken -/

def twoLeaves : SealedTree :=
  let b : Block := ⟨[], [], [], str "abc"⟩
  let leaf : SealedTree := .leaf b (hexstringSafe (SealedTree.blockHash Sha256.sha256 b).val)
  let hashs := SealedTree.hashs Sha256.sha256 [leaf, leaf]
  .node (hexstringSafe (sgxSha256Msg Sha256.sha256 hashs).val) [leaf, leaf]

def zeroMem : Mem := ⟨fun _ _ => 0⟩

def brokenEnv : SealEnv :=
  { hostEnv (.success, some (str "abc")) with
    node := fun p => (hostEnv (.success, some (if p = [1] then str "xyz" else str "abc"))).node p }

def abcHash : Bytes := hexstringSafe (Sha256.sha256 (str "abc")).val

def userDirectory : Directory where
  path := str "p"
  files := fun name =>
    if name = blockName 0 abcHash then some (str "abc")
    else if name = blockName 1 abcHash then some (str "xyz")
    else none

def sealBroken : Option (SealResult Unit) :=
  storageSealFile Sha256.sha256 zeroMem brokenEnv () freshWorkload
    twoLeaves.text userDirectory.path

theorem twoLeaves_proper : twoLeaves.Proper Sha256.sha256 := by
  refine .node (List.cons_ne_nil _ _) fun t ht => ?_
  obtain rfl | rfl := List.mem_pair.mp ht
  · exact .leaf _
  · exact .leaf _

theorem twoLeaves_runs :
    twoLeaves.text.length ≤ heapMaxSize ∧
    sealBroken.map (fun r => (r.status, r.blocks.all fun b =>
        decide (userDirectory.files (nameIn userDirectory.path b.oldPath) = some b.data))) =
      some (.storageUnexpectedFileBlock, true) ∧
    ((leaves [] (treeOf twoLeaves.json)).any
        fun l => decide (l.2.hash = abcHash)) = true ∧
    (directoryAfter Sha256.sha256 zeroMem brokenEnv freshWorkload
        twoLeaves.json none userDirectory).files (blockName 0 abcHash) =
      none ∧
    userDirectory.files (blockName 0 abcHash) = some (str "abc") := by
  decide +kernel

theorem twoLeaves_load : JsonParse.load zeroMem twoLeaves.text = .ok twoLeaves.json :=
  SealedTree.load_text _ twoLeaves_proper.loose twoLeaves_runs.1 (by decide)

theorem twoLeaves_valid :
    validateMerkletree Sha256.sha256 zeroMem brokenEnv.merkle []
      (treeOf twoLeaves.json) = .success :=
  SealedTree.accepted_json _ _ (fun _ => rfl) twoLeaves_proper twoLeaves_runs.1 []

theorem sealBroken_run : ∃ res, sealBroken = some res ∧ res.status = .storageUnexpectedFileBlock ∧
    ∀ b ∈ res.blocks,
      userDirectory.files (nameIn userDirectory.path b.oldPath) = some b.data := by
  obtain ⟨res, hres, hfacts⟩ := Option.map_eq_some_iff.mp twoLeaves_runs.2.1
  simp only [Prod.mk.injEq, List.all_eq_true, decide_eq_true_eq] at hfacts
  exact ⟨res, hres, hfacts⟩

theorem failed_seal_keeps_broken :
    ∃ res, sealBroken = some res ∧
      ((res.status ≠ .success → Kept (treeOf twoLeaves.json) userDirectory
          (directoryAfter Sha256.sha256 zeroMem brokenEnv freshWorkload
            twoLeaves.json none userDirectory) ∧ res.wl = freshWorkload) ↔
        freshWorkload.checkedFiles.length + freshWorkload.newFiles.length ≥ fileNumberUpperLimit ∨
          twoLeaves.json.size = 0 ∨
          Spared Sha256.sha256 zeroMem brokenEnv (treeOf twoLeaves.json)
            userDirectory none (steps [] (treeOf twoLeaves.json))) := by
  obtain ⟨res, hres, -, hread⟩ := sealBroken_run
  exact ⟨res, hres, failed_seal_keeps_iff twoLeaves_load twoLeaves_valid hres hread⟩

theorem failed_seal_destroys :
    ¬ ∀ (sha256 : Bytes → Hash) (mem : Mem) (env : SealEnv) (wl : Workload Unit) (treeText : Bytes)
      (treeJson : JSON) (dir : Directory) (left : Option Bytes) (res : SealResult Unit),
      JsonParse.load mem treeText = .ok treeJson →
      validateMerkletree sha256 mem env.merkle [] (treeOf treeJson) = .success →
      storageSealFile sha256 mem env () wl treeText dir.path = some res →
      (∀ b ∈ res.blocks, dir.files (nameIn dir.path b.oldPath) = some b.data) →
      res.status ≠ .success →
      Kept (treeOf treeJson) dir (directoryAfter sha256 mem env wl treeJson left dir) ∧
        res.wl = wl := by
  intro hclaim
  obtain ⟨res, hres, hst, hread⟩ := sealBroken_run
  have hkept := (hclaim Sha256.sha256 zeroMem brokenEnv freshWorkload _ _ userDirectory none res
    twoLeaves_load twoLeaves_valid hres hread (by rw [hst]; exact CrustStatus.noConfusion)).1
  obtain ⟨-, -, hleaf, hgone, hthere⟩ := twoLeaves_runs
  obtain ⟨l, hl, hhash⟩ := List.any_eq_true.mp hleaf
  have hname : IsBlockFile (treeOf twoLeaves.json) (blockName 0 abcHash) :=
    ⟨0, l, hl, by rw [of_decide_eq_true hhash]⟩
  have hkeep := hkept.files (blockName 0 abcHash) (str "abc") hname hthere
  rw [hgone] at hkeep
  cases hkeep

end CrustSworker.SealFailure

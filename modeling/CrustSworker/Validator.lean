import CrustSworker.JsonParse
import CrustSworker.Merkle
import CrustSworker.TextSearch
import CrustSworker.Workload

/-!
# Validating meaningful files

`validate_meaningful_file`. A pass merges `new_files` into `checked_files` and then
checks one randomly drawn block of each drawn file. Other ecalls may run at the start
of every iteration, so a pass is given as its steps: `mergeNewFiles`, `checkFile` for
one index, and `settleChanged` for the statistics.

The tree of a file comes from the host. It is authenticated as a JSON value, but the
leaf to check is looked up in its text.
-/

namespace CrustSworker.Validator

open Merkle OrderedMap

variable {τ : Type}

def stag : Bytes := str "\"" ++ mtLinksNum ++ str "\":0,\"" ++ mtHash ++ str "\":\""

def etag : Bytes := str "\",\"" ++ mtSize ++ str "\""

/-- What the host, the allocator and the random source answer while one file is
checked; `uninit` is what `got_hash` holds when there is nothing to hash. -/
structure CheckEnv where
  persistGet : CrustStatus × Option Bytes
  merkle : Pos → MerkleAlloc
  rand : Nat → UInt32
  validateGetFile : Bytes → CrustStatus × Option Bytes
  mallocLeafHash : Bool
  uninit : Hash

inductive Verdict where
  | skipped
  | failed
  | offline
  | passed
  deriving DecidableEq, Repr

def insertSorted (i : Nat) : List Nat → List Nat
  | [] => [i]
  | j :: s => if i = j then j :: s else if i < j then i :: j :: s else j :: insertSorted i s

def blockIdxs (rand : Nat → UInt32) (fileBlockNum : Nat) : List Nat :=
  (List.range (min meaningfulValidateMinBlockNum fileBlockNum)).foldl
    (fun s i => insertSorted ((rand i).toNat % fileBlockNum) s) []

/-- The `do … while` loop: `n` is how far `cur_block_idx` is behind the wanted index. -/
def seekLeaf (s : Bytes) : Nat → Nat → Nat → Option Nat × Nat
  | n, spos, cur =>
    match TextSearch.find stag s spos with
    | none => (none, cur)
    | some p =>
      match n with
      | 0 => (some (p + stag.length), cur + 1)
      | n + 1 => seekLeaf s n (p + stag.length) (cur + 1)

section
variable (sha256 : Bytes → Hash) (mem : Mem) (env : CheckEnv)

def gotHash : Option Bytes → Hash
  | some data => sgxSha256Msg sha256 data
  | none => env.uninit

def checkBlocks (s : Bytes) : List Nat → Nat → Nat → Verdict
  | [], _, _ => .passed
  | b :: bs, spos, cur =>
    match seekLeaf s (b - cur) spos cur with
    | (none, _) => .failed
    | (some spos, cur) =>
      match TextSearch.find etag s spos with
      | none => .failed
      | some epos =>
        let leafHash := (s.drop spos).take (epos - spos)
        let reply := env.validateGetFile (decNat b ++ str "_" ++ leafHash)
        if reply.1 ≠ .success then
          if reply.1 = .validateKarstOffline then .offline else .failed
        else
          match hexStringToBytes leafHash with
          -- The check of this block is skipped.
          | none => checkBlocks s bs spos cur
          | some u =>
            if ¬ env.mallocLeafHash then checkBlocks s bs spos cur
            else if mem.read u 32 ≠ gotHash sha256 env reply.2 then .failed
            else checkBlocks s bs epos cur

def treeAccepted (f : FileItem τ) (treeJson : JSON) : Bool :=
  decide (f.hashText = (treeJson.get fileHash).toStr) &&
    decide (validateMerkletree sha256 mem env.merkle [] (treeOf treeJson) = .success)

/-- One iteration on the file it has drawn. `none` is a fault in the JSON loader. -/
def judgeFile (f : FileItem τ) : Option Verdict :=
  if f.current = statusUnconfirmed ∨ f.current = statusDeleted then some .skipped
  else
    match env.persistGet with
    | (.success, some treeStr) =>
      match JsonParse.load mem treeStr with
      | .error _ => none
      | .ok treeJson =>
        if ¬ treeAccepted sha256 mem env f treeJson then some .failed
        else
          some (checkBlocks sha256 mem env treeStr
            (blockIdxs env.rand (sizeT (f.json.get fileBlockNum).toInt)) 0 0)
    | _ => some .failed

end

def applyVerdict (v : Verdict) (f : FileItem τ) : FileItem τ :=
  match v with
  | .failed =>
    if f.current = statusValid then f.setStatusChar currentStatus statusLost else f
  | .passed =>
    if f.current = statusLost then f.setStatusChar currentStatus statusValid else f
  | _ => f

def noteChange (v : Verdict) (f : FileItem τ) (i : Nat) (changed : List (Nat × Bool)) :
    List (Nat × Bool) :=
  match v with
  | .failed => if f.current = statusValid then insertKey (decide <| · < ·) i true changed else changed
  | .passed => if f.current = statusLost then insertKey (decide <| · < ·) i false changed else changed
  | _ => changed

def mergeNewFiles (wl : Workload τ) : Workload τ :=
  { wl with checkedFiles := wl.checkedFiles ++ wl.newFiles, newFiles := [] }

def initFailed (wl : Workload τ) : Workload τ :=
  if wl.checkedFiles.length ≠ 0 then { wl with reportFiles := false } else wl

structure Pass (τ : Type) where
  wl : Workload τ
  changed : List (Nat × Bool)
  stopped : Bool

def checkFile (sha256 : Bytes → Hash) (mem : Mem) (env : CheckEnv) (s : Pass τ) (i : Nat) :
    Option (Pass τ) :=
  match s.wl.checkedFiles[i]? with
  | none => some s
  | some f =>
    match judgeFile sha256 mem env f with
    | none => none
    | some .offline => some { s with wl := { s.wl with reportFiles := false }, stopped := true }
    | some v =>
      some { s with
        wl := { s.wl with checkedFiles := s.wl.checkedFiles.modify i (applyVerdict v) }
        changed := noteChange v f i s.changed }

def settleChanged (wl : Workload τ) (changed : List (Nat × Bool)) : Workload τ :=
  changed.foldl (fun wl c =>
    match wl.checkedFiles[c.1]? with
    | some f => wl.moveWlSpec f.current (if c.2 then statusValid else statusLost) f.oldSize
    | none => wl) wl

theorem settleChanged_eq (wl : Workload τ) (changed : List (Nat × Bool)) :
    ∃ info, settleChanged wl changed = { wl with wlSpecInfo := info } := by
  unfold settleChanged
  induction changed generalizing wl with
  | nil => exact ⟨wl.wlSpecInfo, rfl⟩
  | cons c changed ih =>
    rw [List.foldl_cons]
    split
    · rename_i f _
      obtain ⟨info, h⟩ := wl.moveWlSpec_eq f.current (if c.2 then statusValid else statusLost) f.oldSize
      rw [h]
      exact ih { wl with wlSpecInfo := info }
    · exact ih wl

end CrustSworker.Validator

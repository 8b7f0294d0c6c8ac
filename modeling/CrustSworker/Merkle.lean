import CrustSworker.Json
import CrustSworker.Parameter

/-!
# Merkle trees in JSON

`validate_merkletree_json` and the sealing walk read a node of the tree through the
same few accessors. `treeOf` collects what they see of a JSON value; the walks are
then recursions over that tree. A node is known by its position, the child indices
on the way to it from the last to the first.
-/

namespace CrustSworker

/-- What the tree functions read of one JSON node. An empty object or array, which
the sealing walk skips, has no `links_num` field. -/
structure NodeInfo where
  size : Int
  linksNum : Int
  linksSize : Int
  hash : Bytes
  dataSize : Int
  size_zero : size = 0 → linksNum = 0

inductive Tree where
  | node (info : NodeInfo) (links : List Tree)

abbrev Pos := List Nat

namespace Tree

def info : Tree → NodeInfo
  | .node n _ => n

end Tree

namespace Merkle

def infoOf (j : JSON) : NodeInfo where
  size := j.size
  linksNum := (j.get mtLinksNum).toInt
  linksSize := (j.get mtLinks).size
  hash := (j.get mtHash).toStr
  dataSize := (j.get mtSize).toInt
  size_zero := by
    intro h
    cases j with
    | object m =>
      have hm : m = [] := by simpa [JSON.size] using h
      subst hm
      rfl
    | _ => rfl

def nullTree : Tree := .node (infoOf .null) []

mutual

def treeOf : JSON → Tree
  | .object m =>
    let n := infoOf (.object m)
    .node n ((fieldLinks m).takeD n.linksNum.toNat nullTree)
  | j => .node (infoOf j) []

def fieldLinks : List (Bytes × JSON) → List Tree
  | [] => []
  | (k, v) :: m => if mtLinks = k then links v else fieldLinks m

/-- Indexing a value that is not an array first empties it. -/
def links : JSON → List Tree
  | .array l => itemTrees l
  | _ => []

def itemTrees : List JSON → List Tree
  | [] => []
  | j :: l => treeOf j :: itemTrees l

end

/-! ### `validate_merkletree_json` -/

/-- The allocations made for a node: its buffer of child hashes, its decoded hash as
a child, and its decoded hash as a parent. -/
structure MerkleAlloc where
  buffer : Bool
  child : Bool
  parent : Bool

section
variable (sha256 : Bytes → Hash) (mem : Mem) (alloc : Pos → MerkleAlloc)

mutual

def validateMerkletree (p : Pos) : Tree → CrustStatus
  | .node n links =>
    if n.linksNum = 0 then .success
    else if n.linksNum ≠ n.linksSize then .invalidMerkletree
    else if ¬ encMalloc (alloc p).buffer (sizeT (n.linksNum * hashLength)) then .mallocFailed
    else
      match validateLinks p 0 links with
      | none => .invalidMerkletree
      | some childrenHashs =>
        if ¬ (alloc p).parent then .mallocFailed
        else if hexHash mem n.hash ≠ sgxSha256Msg sha256 childrenHashs then .invalidMerkletree
        else .success

def validateLinks (p : Pos) (i : Nat) : List Tree → Option Bytes
  | [] => some []
  | t :: ts =>
    if validateMerkletree (i :: p) t ≠ .success then none
    else if ¬ (alloc (i :: p)).child then none
    else
      match validateLinks p (i + 1) ts with
      | none => none
      | some hashs => some ((hexHash mem t.info.hash).val ++ hashs)

end

end

/-! ### Leaves -/

mutual

def leaves (p : Pos) : Tree → List (Pos × NodeInfo)
  | .node n links => if n.linksNum = 0 then [(p, n)] else leavesOf p 0 links

def leavesOf (p : Pos) (i : Nat) : List Tree → List (Pos × NodeInfo)
  | [] => []
  | t :: ts => leaves (i :: p) t ++ leavesOf p (i + 1) ts

end

end Merkle

end CrustSworker

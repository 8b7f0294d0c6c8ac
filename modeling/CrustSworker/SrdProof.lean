import CrustSworker.Sha256
import CrustSworker.SrdCredit
import CrustSworker.SrdDecrease

/-!
# The check of one G hash

What `validate_srd` does for a drawn position: it has the host show the M hashes of the G file,
compares their hash with the G hash, and has it show one leaf. The host answers as it likes, and
its answers may depend on the path it is asked for. A file that does not fit into the heap is
neither a pass nor a failure. Without a buffer for the hex text of the G hash the path ends in the
separator.
-/

namespace CrustSworker.SrdProof

open OrderedMap Srd SrdInfo SrdCredit

/-- What the host, the allocator and the random source answer during one check. -/
structure SrdHost where
  getFile : Bytes → Option Bytes
  hexText : Bool
  malloc : Bool
  rand : UInt32

inductive Verdict where
  | passed
  | failed
  | starved
  deriving DecidableEq, Repr

def SrdHost.srdBlockIndex (host : SrdHost) : Nat := host.rand.toNat % srdRandDataNum

def SrdHost.gPath (host : SrdHost) (dirPath : Bytes) (gHash : Hash) : Bytes :=
  Disk.inDir slash dirPath (hexstringSafeWith host.hexText gHash.val)

theorem gPath_served {host : SrdHost} (h : host.hexText = true) (dirPath : Bytes) (gHash : Hash) :
    host.gPath dirPath gHash = getGPathWithHash dirPath gHash := by
  rw [SrdHost.gPath, hexstringSafeWith_hash, if_pos h, getGPathWithHash]

def leafHash (mem : Mem) (mHashs : Bytes) (srdBlockIndex : Nat) : Hash :=
  mem.read (mHashs.drop (srdBlockIndex * hashLength)) 32

section
variable (sha256 : Bytes → Hash) (mem : Mem) (host : SrdHost)

def checkSrd (dirPath pGHash : Bytes) : Verdict :=
  let gHash : Hash := mem.read pGHash 32
  let gPath := host.gPath dirPath gHash
  match host.getFile (getMHashsFilePath gPath) with
  | none => .failed
  | some mHashs =>
    if ¬ encMalloc host.malloc mHashs.length then .starved
    else if gHash ≠ sgxSha256Msg sha256 mHashs then .failed
    else
      let hash := leafHash mem mHashs host.srdBlockIndex
      match host.getFile (getLeafPath gPath host.srdBlockIndex hash) with
      | none => .failed
      | some leafData => if hash ≠ sgxSha256Msg sha256 leafData then .failed else .passed

/-! ### What was sealed -/

def hashed (src : Bytes) : Bytes := src.take (src.length % 2 ^ 32)

def Starves (path : Bytes) (g : Hash) : Prop :=
  ∃ mHashs, host.getFile (getMHashsFilePath (host.gPath path g)) = some mHashs ∧
    encMalloc host.malloc mHashs.length = false

end

section
variable {sha256 : Bytes → Hash} {mem : Mem} {host : SrdHost} {env : IncreaseEnv} {g : Hash}
  {path : Bytes}

theorem srdBlockIndex_lt (host : SrdHost) : host.srdBlockIndex < srdRandDataNum :=
  Nat.mod_lt _ (by decide)

theorem newGHash_mHashs (h : newGHash sha256 env = some g) :
    ∃ hs, mHashs sha256 env.sealed (List.range srdRandDataNum) = some hs ∧
      g = sgxSha256Msg sha256 (Workload.concatHashs hs) := by
  unfold newGHash at h
  cases hm : mHashs sha256 env.sealed (List.range srdRandDataNum) with
  | none =>
    rw [hm] at h
    split_ifs at h
  | some hs =>
    rw [hm] at h
    split_ifs at h
    exact ⟨hs, rfl, (Option.some.inj h).symm⟩

theorem drop_concatHashs {hs : List Hash} {i : Nat} {h : Hash} (hi : hs[i]? = some h) :
    (Workload.concatHashs hs).drop (i * hashLength) =
      h.val ++ Workload.concatHashs (hs.drop (i + 1)) := by
  induction hs generalizing i with
  | nil => cases hi
  | cons x hs ih =>
    have hcons : Workload.concatHashs (x :: hs) = x.val ++ Workload.concatHashs hs := rfl
    cases i with
    | zero =>
      cases hi
      rw [Nat.zero_mul, List.drop_zero, hcons]
      rfl
    | succ i =>
      have hlen : (i + 1) * hashLength = x.val.length + i * hashLength := by
        rw [x.property, Nat.succ_mul, Nat.add_comm]
        rfl
      rw [hcons, hlen, List.drop_length_add_append]
      exact ih hi

theorem leafHash_concatHashs (mem : Mem) {hs : List Hash} {i : Nat} {h : Hash}
    (hi : hs[i]? = some h) : leafHash mem (Workload.concatHashs hs) i = h := by
  refine Subtype.ext ?_
  rw [leafHash, drop_concatHashs hi, mem.read_of_le]
  · exact List.take_left' h.property
  · rw [List.length_append, h.property]
    exact Nat.le_add_right _ _

theorem checkSrd_starved (g : Hash) :
    checkSrd sha256 mem host path g.val = .starved ↔ Starves host path g := by
  unfold checkSrd Starves
  rw [mem.read_full]
  dsimp only
  cases hb : host.getFile (getMHashsFilePath (host.gPath path g)) with
  | none => simp
  | some b =>
    dsimp only
    cases hm : encMalloc host.malloc b.length with
    | true =>
      have hnone : ¬ ∃ mHashs, some b = some mHashs ∧
          encMalloc host.malloc mHashs.length = false := by
        rintro ⟨_, hb', hmalloc⟩
        cases hb'
        rw [hm] at hmalloc
        cases hmalloc
      refine iff_of_false (fun h => ?_) hnone
      rw [if_neg (not_not.mpr rfl)] at h
      split_ifs at h
      cases hl : host.getFile (getLeafPath (host.gPath path g) host.srdBlockIndex
          (leafHash mem b host.srdBlockIndex)) with
      | none =>
        rw [hl] at h
        cases h
      | some leafData =>
        rw [hl] at h
        dsimp only at h
        split_ifs at h
    | false => exact iff_of_true rfl ⟨b, rfl, hm⟩

theorem checkSrd_passed (g : Hash) :
    checkSrd sha256 mem host path g.val = .passed ↔
      ∃ mHashs leafData, host.getFile (getMHashsFilePath (host.gPath path g)) = some mHashs ∧
        encMalloc host.malloc mHashs.length = true ∧ g = sgxSha256Msg sha256 mHashs ∧
        host.getFile (getLeafPath (host.gPath path g) host.srdBlockIndex
          (leafHash mem mHashs host.srdBlockIndex)) = some leafData ∧
        leafHash mem mHashs host.srdBlockIndex = sgxSha256Msg sha256 leafData := by
  unfold checkSrd
  rw [mem.read_full]
  dsimp only
  cases hb : host.getFile (getMHashsFilePath (host.gPath path g)) with
  | none => simp
  | some b =>
    dsimp only
    constructor
    · intro h
      split_ifs at h with hm hg
      cases hl : host.getFile (getLeafPath (host.gPath path g) host.srdBlockIndex
          (leafHash mem b host.srdBlockIndex)) with
      | none =>
        rw [hl] at h
        cases h
      | some leafData =>
        rw [hl] at h
        dsimp only at h
        split_ifs at h with hleaf
        exact ⟨b, leafData, rfl, hm, not_not.mp hg, hl, not_not.mp hleaf⟩
    · rintro ⟨_, leafData, hb, hm, hg, hl, hleaf⟩
      cases hb
      rw [if_neg (not_not.mpr hm), if_neg (not_not.mpr hg), hl]
      exact if_neg (not_not.mpr hleaf)

end

/-! ### A host that shows everything -/

end CrustSworker.SrdProof

import CrustSworker.JsonParse
import CrustSworker.Workload

/-!
# Sealed random data

`Srd.cpp`: the G hashes kept for each path, the counts of them that are published to the app,
and the pending task number. The host answers every ocall as it likes; `answer k` is its
answer to the `k`-th deletion of a call, whatever the path it is asked to delete.
-/

namespace CrustSworker.Srd

open OrderedMap

variable {τ : Type}

abbrev PathMap := List (Bytes × List Bytes)

def srdMaxPerTurn : Int := 64
def srdNumberUpperLimit : Int := 204800
def srdRandDataNum : Nat := 1024
def srdRandDataLength : Nat := 1048576

def hashsOf (m : PathMap) (path : Bytes) : List Bytes := (findKey path m).getD []

def srdTotal (m : PathMap) : Nat := (m.map fun p => p.2.length).sum

/-! ### Published counts -/

def assigned (info : JSON) (path : Bytes) : Int := ((info.get path).get (str "assigned")).toInt

def assign (info : JSON) (path : Bytes) (n : Int) : JSON :=
  info.put path ((info.get path).put (str "assigned") (.integral n))

def setSrdInfo (info : JSON) (path : Bytes) (change : Int) : JSON :=
  let info := assign info path (assigned info path + change)
  if assigned info path < 0 then assign info path 0 else info

/-! ### `srd_increase` -/

/-- `sealed i` is the sealed text of the `i`-th M, `none` when sealing fails. -/
structure IncreaseEnv where
  baseBuffer : Bool
  createDir : CrustStatus
  allocHashs : Bool
  sealed : Nat → Option Bytes
  allocHash : Bool
  hexText : Bool

def mHashs (sha256 : Bytes → Hash) (sealed : Nat → Option Bytes) : List Nat → Option (List Hash)
  | [] => some []
  | i :: is =>
    match sealed i, mHashs sha256 sealed is with
    | some data, some hs => some (sgxSha256Msg sha256 (data.take srdRandDataLength) :: hs)
    | _, _ => none

def newGHash (sha256 : Bytes → Hash) (env : IncreaseEnv) : Option Hash :=
  if ¬ env.baseBuffer then none
  else if env.createDir ≠ .success then none
  else if ¬ encMalloc env.allocHashs (srdRandDataNum * hashLength) then none
  else
    match mHashs sha256 env.sealed (List.range srdRandDataNum) with
    | none => none
    | some hs =>
      if ¬ encMalloc env.allocHash hashLength then none
      else if ¬ env.hexText then none
      else some (sgxSha256Msg sha256 (Workload.concatHashs hs))

theorem mHashs_isSome (sha256 : Bytes → Hash) (sealed : Nat → Option Bytes) (is : List Nat) :
    (mHashs sha256 sealed is).isSome = true ↔ ∀ i ∈ is, (sealed i).isSome = true := by
  induction is with
  | nil => simp [mHashs]
  | cons i is ih =>
    rw [List.forall_mem_cons, ← ih, mHashs]
    cases sealed i with
    | none => simp
    | some data => cases mHashs sha256 sealed is <;> simp

structure IncreaseEnv.Goes (env : IncreaseEnv) : Prop where
  baseBuffer : env.baseBuffer = true
  createDir : env.createDir = .success
  allocHashs : env.allocHashs = true
  sealed : ∀ i < srdRandDataNum, (env.sealed i).isSome = true
  allocHash : env.allocHash = true
  hexText : env.hexText = true

theorem guard_isSome {α : Type} {c : Prop} [Decidable c] {x : Option α} :
    (if ¬ c then none else x).isSome = true ↔ c ∧ x.isSome = true := by
  by_cases hc : c <;> simp [hc]

theorem newGHash_isSome (sha256 : Bytes → Hash) (env : IncreaseEnv) :
    (newGHash sha256 env).isSome = true ↔ env.Goes := by
  have hsealed := mHashs_isSome sha256 env.sealed (List.range srdRandDataNum)
  simp only [List.mem_range] at hsealed
  have hmalloc : ∀ ok, encMalloc ok (srdRandDataNum * hashLength) = ok := by decide +kernel
  have hsmall : ∀ ok, encMalloc ok hashLength = ok := by decide +kernel
  unfold newGHash
  simp only [hmalloc, hsmall, ne_eq, guard_isSome]
  cases hm : mHashs sha256 env.sealed (List.range srdRandDataNum) with
  | none =>
    rw [hm] at hsealed
    constructor
    · rintro ⟨-, -, -, h⟩
      cases h
    · intro h
      cases hsealed.mpr h.sealed
  | some hs =>
    rw [hm] at hsealed
    simp only [guard_isSome, Option.isSome_some, and_true]
    constructor
    · rintro ⟨hb, hc, ha, hg, ht⟩
      exact ⟨hb, hc, ha, hsealed.mp rfl, hg, ht⟩
    · intro h
      exact ⟨h.baseBuffer, h.createDir, h.allocHashs, h.allocHash, h.hexText⟩

def srdIncrease (sha256 : Bytes → Hash) (env : IncreaseEnv) (wl : Workload τ) (path : Bytes) :
    Workload τ :=
  match newGHash sha256 env with
  | none => wl
  | some g =>
    { wl with
      srdPath2hashs := Workload.pushHash wl.srdPath2hashs path g.val
      srdInfoJson := setSrdInfo wl.srdInfoJson path 1 }

/-! ### `srd_decrease` -/

abbrev DelIndex := List (Bytes × List Nat)

def insertIndex (i : Nat) : List Nat → List Nat
  | [] => [i]
  | j :: js => if i < j then i :: j :: js else if i = j then j :: js else j :: insertIndex i js

structure Choice where
  del : DelIndex
  num : Nat
  endOfTraverse : Bool

def chooseIn (sAcc : Nat) (c : Choice) (entry : Bytes × List Bytes) : Choice :=
  if entry.2.length ≥ sAcc then
    let tIdx := entry.2.length - sAcc
    let idxs := (findKey entry.1 c.del).getD []
    if tIdx ∈ idxs then ⟨insertKey ltBytes entry.1 idxs c.del, c.num, false⟩
    else ⟨insertKey ltBytes entry.1 (insertIndex tIdx idxs) c.del, c.num + 1, false⟩
  else c

def chooseLoop (m : PathMap) (change : Int) : Nat → Nat → DelIndex → Nat → DelIndex
  | 0, _, del, _ => del
  | fuel + 1, sAcc, del, num =>
    if (num : Int) < change then
      let c := m.foldl (chooseIn sAcc) ⟨del, num, true⟩
      if c.endOfTraverse then c.del else chooseLoop m change fuel (sAcc + 1) c.del c.num
    else del

theorem length_le_srdTotal {m : PathMap} {entry : Bytes × List Bytes} (h : entry ∈ m) :
    entry.2.length ≤ srdTotal m := by
  induction m with
  | nil => cases h
  | cons p m ih =>
    have hsum : srdTotal (p :: m) = p.2.length + srdTotal m := rfl
    rcases List.mem_cons.mp h with rfl | h
    · omega
    · have := ih h
      omega

theorem choose_beyond {m : PathMap} {sAcc : Nat} (h : ∀ entry ∈ m, entry.2.length < sAcc)
    (c : Choice) : m.foldl (chooseIn sAcc) c = c := by
  induction m with
  | nil => rfl
  | cons entry m ih =>
    have hlt := h entry List.mem_cons_self
    rw [List.foldl_cons, chooseIn, if_neg (by omega)]
    exact ih fun e he => h e (List.mem_cons_of_mem _ he)

/-- More fuel changes nothing: the round behind the longest list chooses nothing and ends
the loop. -/
theorem chooseLoop_fuel {m : PathMap} {change : Int} {fuel sAcc : Nat} {del : DelIndex}
    {num : Nat} (h : srdTotal m < sAcc + fuel) :
    chooseLoop m change (fuel + 1) sAcc del num = chooseLoop m change fuel sAcc del num := by
  induction fuel generalizing sAcc del num with
  | zero =>
    have hend : m.foldl (chooseIn sAcc) ⟨del, num, true⟩ = ⟨del, num, true⟩ :=
      choose_beyond (fun entry he => by have := length_le_srdTotal he; omega) _
    simp only [chooseLoop, hend, ite_self]
  | succ fuel ih =>
    rw [chooseLoop, chooseLoop]
    dsimp only
    split_ifs
    · rfl
    · exact ih (by omega)
    · rfl

/-- The hashes of one path leave from the last chosen index to the first; an index that is
not there is an access out of bounds. `gone` has what their hex texts are made of. -/
def erasePath (mem : Mem) (path : Bytes) : List Nat → PathMap → PathMap →
    Option (PathMap × PathMap)
  | [], m, gone => some (m, gone)
  | i :: is, m, gone =>
    match (hashsOf m path)[i]? with
    | none => none
    | some g =>
      erasePath mem path is (insertKey ltBytes path ((hashsOf m path).eraseIdx i) m)
        (Workload.pushHash gone path (mem.read g hashLength).val)

def eraseChosen (mem : Mem) : DelIndex → PathMap → PathMap → Option (PathMap × PathMap)
  | [], m, gone => some (m, gone)
  | (path, idxs) :: del, m, gone =>
    match erasePath mem path idxs.reverse m gone with
    | none => none
    | some r => eraseChosen mem del r.1 r.2

def dropCounts (info : JSON) (gone : PathMap) : JSON :=
  gone.foldl (fun info p => setSrdInfo info p.1 (-(p.2.length : Int))) info

def srdDecrease (mem : Mem) (answer : Nat → CrustStatus) (wl : Workload τ) (change : Int)
    (del : DelIndex) : Option (Nat × Workload τ) :=
  let delNum := (del.map fun p => p.2.length).sum
  let change := min change (srdTotal wl.srdPath2hashs)
  if change = 0 then some (0, wl)
  else
    let del :=
      chooseLoop wl.srdPath2hashs change (srdTotal wl.srdPath2hashs + 1) 1 del delNum
    (eraseChosen mem del wl.srdPath2hashs []).map fun r =>
      ((List.range (srdTotal r.2)).countP fun k => decide (answer k = .success),
        { wl with srdPath2hashs := r.1, srdInfoJson := dropCounts wl.srdInfoJson r.2 })

/-! ### `srd_update_metadata` -/

structure Update where
  m : PathMap
  info : JSON
  asked : Nat

def popHash (answer : Nat → CrustStatus) (path : Bytes) (u : Update) : Update where
  m := insertKey ltBytes path (hashsOf u.m path).dropLast u.m
  info := if answer u.asked = .success then setSrdInfo u.info path (-1) else u.info
  asked := u.asked + 1

def popHashs (answer : Nat → CrustStatus) (path : Bytes) : Nat → Update → Update
  | 0, u => u
  | n + 1, u => popHashs answer path n (popHash answer path u)

def realDeletedNum (m : PathMap) (path : Bytes) (v : JSON) : Nat :=
  min (sizeT v.toInt) (hashsOf m path).length

def updatePath (answer : Nat → CrustStatus) (u : Update) (entry : Bytes × JSON) : Update :=
  popHashs answer entry.1 (realDeletedNum u.m entry.1 entry.2)
    { u with m := insertKey ltBytes entry.1 (hashsOf u.m entry.1) u.m }

def srdUpdateMetadata (mem : Mem) (answer : Nat → CrustStatus) (wl : Workload τ)
    (hashs : Bytes) : Option (Workload τ) :=
  match JsonParse.load mem hashs with
  | .error _ => none
  | .ok doc =>
    let u := doc.objectRange.foldl (updatePath answer) ⟨wl.srdPath2hashs, wl.srdInfoJson, 0⟩
    some { wl with srdPath2hashs := u.m, srdInfoJson := u.info }

end CrustSworker.Srd

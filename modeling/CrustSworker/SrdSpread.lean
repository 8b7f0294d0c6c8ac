import Mathlib.Algebra.BigOperators.Ring.Finset
import Mathlib.Algebra.Order.BigOperators.Group.List
import CrustSworker.RoundRobin
import CrustSworker.SrdPaths

/-!
# Srd space over the disks

A request for more srd space is spread over the disks: `get_increase_srd_info` goes round the
disks and assigns one unit to each that has space left, and `srd_change` goes round them again
and lists one task for each unit. What no disk has space for goes back to the enclave, and so
does every task that fails.
-/

namespace CrustSworker.SrdSpread

open OrderedMap RoundRobin SrdPaths

/-! ### The disks -/

structure SrdConfig where
  srdPaths : List Bytes
  srdPath : Bytes

structure Space where
  avail : Bytes → Option StatFs
  total : Bytes → Option StatFs

def getAvailSpaceUnderDirG (space : Space) (path : Bytes) : Nat :=
  match space.avail path with
  | none => 0
  | some diskInfo => ((diskInfo.fBavail * diskInfo.fBsize) >>> 30).toNat

def getTotalSpaceUnderDirG (space : Space) (path : Bytes) : Nat :=
  match space.total path with
  | none => 0
  | some diskInfo => ((diskInfo.fBlocks * diskInfo.fBsize) >>> 30).toNat

def toLong (n : Int) : Int := Int.bmod n (2 ^ 64)

structure DiskInfo where
  available : Int
  total : Int
  left : Int
  increased : Int
  deriving DecidableEq

abbrev DiskMap := List (Bytes × DiskInfo)

def availableBehind (reserved : Nat) (avail : Nat) : Int :=
  if toLong avail ≤ toLong reserved then 0 else toLong (toLong avail - toLong reserved)

def diskInfo (space : Space) (reserved : Nat) (path : Bytes) : DiskInfo where
  available := availableBehind reserved (getAvailSpaceUnderDirG space path)
  total := toLong (getTotalSpaceUnderDirG space path)
  left := availableBehind reserved (getAvailSpaceUnderDirG space path)
  increased := 0

/-- The sizes are below `2 ^ 34`, so `total_avail` is not wrapped. -/
def addDisk (space : Space) (reserved : Nat) (acc : Nat × DiskMap) (path : Bytes) : Nat × DiskMap :=
  (acc.1 + sizeT (diskInfo space reserved path).available,
    insertKey ltBytes path (diskInfo space reserved path) acc.2)

def diskPaths (disks : Disks) (config : SrdConfig) : Option (List Bytes) :=
  if config.srdPaths ≠ [] then
    (getValidSrdPath disks config.srdPaths).map fun srdPaths => srdPaths.map toStringApp
  else if disks.createDirectory config.srdPath then some [config.srdPath]
  else some []

def assign (disk : Bytes × DiskInfo) : Option (Bytes × DiskInfo) :=
  if disk.2.left > 0 then
    some (disk.1, { disk.2 with increased := disk.2.increased + 1, left := disk.2.left - 1 })
  else none

def getIncreaseSrdInfo (fuel : Nat) (disks : Disks) (space : Space) (config : SrdConfig)
    (reserved trueSrdCapacity : Nat) : Option (Nat × DiskMap) :=
  (diskPaths disks config).bind fun paths =>
    let found := paths.foldl (addDisk space reserved) (0, [])
    (cycle assign fuel (min found.1 trueSrdCapacity) [] found.2).map fun r =>
      (min found.1 trueSrdCapacity, r.2)

/-! ### The tasks -/

def expand (disk : Bytes × DiskInfo) : Option (Bytes × DiskInfo) :=
  if disk.2.increased > 0 then some (disk.1, { disk.2 with increased := disk.2.increased - 1 })
  else none

structure Sent where
  setChanges : List Int
  tasks : List Bytes
  srdCapacity : Int

/-- `srd_change` for more space; `increased` tells which of the tasks succeed. -/
def srdChange (fuel : Nat) (disks : Disks) (space : Space) (config : SrdConfig) (reserved : Nat)
    (increased : Nat → Bool) (change : Nat) : Option Sent :=
  (getIncreaseSrdInfo fuel disks space config reserved change).bind fun info =>
    let trueIncrease := info.1
    let leftSrdNum := if (change : Int) > toLong trueIncrease then [(change : Int) - trueIncrease] else []
    if trueIncrease = 0 then some ⟨leftSrdNum, [], 0⟩
    else
      (cycle expand fuel trueIncrease [] info.2).map fun r =>
        let failed := (List.range r.1.length).filter fun i => !increased i
        ⟨leftSrdNum ++ failed.map fun _ => 1, r.1.map Prod.fst, Int.bmod trueIncrease (2 ^ 32)⟩

/-! ### What a request is to come to -/

def usable (space : Space) (reserved : Nat) (path : Bytes) : Nat :=
  getAvailSpaceUnderDirG space path - reserved

structure Spread (space : Space) (reserved : Nat) (paths : List Bytes) (capacity : Nat)
    (info : DiskMap) : Prop where
  disks : (info.map Prod.fst).Perm paths
  assigned : (info.map fun e => e.2.increased).sum = capacity
  within : ∀ e ∈ info, 0 ≤ e.2.increased ∧ 0 ≤ e.2.left ∧
    e.2.increased + e.2.left = usable space reserved e.1
  balanced : ∀ e ∈ info, ∀ f ∈ info, 0 < e.2.left → 0 < f.2.left →
    e.2.increased ≤ f.2.increased + 1

section
variable {space : Space} {reserved : Nat}

theorem toLong_of_lt {n : Nat} (h : n < 2 ^ 63) : toLong n = n :=
  Int.bmod_eq_of_le (by omega) (by omega)

theorem getAvailSpaceUnderDirG_lt (space : Space) (path : Bytes) :
    getAvailSpaceUnderDirG space path < 2 ^ 34 := by
  unfold getAvailSpaceUnderDirG
  split
  · decide
  · rename_i diskInfo _
    have hlt := (diskInfo.fBavail * diskInfo.fBsize).toNat_lt
    rw [UInt64.toNat_shiftRight, Nat.shiftRight_eq_div_pow]
    exact Nat.div_lt_of_lt_mul (by simpa using hlt)

theorem availableBehind_eq (hreserved : reserved < 2 ^ 63) (path : Bytes) :
    availableBehind reserved (getAvailSpaceUnderDirG space path) = usable space reserved path := by
  have hlt := getAvailSpaceUnderDirG_lt space path
  rw [availableBehind, usable, toLong_of_lt hreserved, toLong_of_lt (by omega)]
  split_ifs with hle
  · rw [Nat.sub_eq_zero_of_le (Int.ofNat_le.mp hle)]
    rfl
  · have hsub : (getAvailSpaceUnderDirG space path : Int) - reserved =
        (getAvailSpaceUnderDirG space path - reserved : Nat) := by omega
    rw [hsub, toLong_of_lt (by omega)]

theorem diskPaths_nodup {disks : Disks} {config : SrdConfig} {paths : List Bytes}
    (h : diskPaths disks config = some paths) : paths.Nodup := by
  unfold diskPaths at h
  split_ifs at h
  · obtain ⟨valid, hvalid, rfl⟩ := Option.map_eq_some_iff.mp h
    exact (getValidSrdPath_nodup hvalid).map toStringApp_injective
  · rw [← Option.some.inj h]
    exact List.nodup_singleton _
  · rw [← Option.some.inj h]
    exact List.nodup_nil

variable (space) in
theorem foldl_addDisk (hreserved : reserved < 2 ^ 63) {paths : List Bytes} (hnodup : paths.Nodup)
    (acc : Nat × DiskMap) (hnew : ∀ e ∈ acc.2, e.1 ∉ paths) :
    (paths.foldl (addDisk space reserved) acc).1 = acc.1 + (paths.map (usable space reserved)).sum ∧
      (paths.foldl (addDisk space reserved) acc).2.Perm
        (acc.2 ++ paths.map fun path => (path, diskInfo space reserved path)) := by
  induction paths generalizing acc with
  | nil => simp
  | cons path paths ih =>
    obtain ⟨hpath, hrest⟩ := List.nodup_cons.mp hnodup
    have hfresh : ∀ e ∈ acc.2, e.1 ≠ path := fun e he heq => hnew e he (heq ▸ List.mem_cons_self)
    have hperm := insertKey_perm ltBytes hfresh (diskInfo space reserved path)
    have hnew' : ∀ e ∈ (addDisk space reserved acc path).2, e.1 ∉ paths := by
      intro e he
      rcases List.mem_cons.mp (hperm.mem_iff.mp he) with rfl | he
      · exact hpath
      · exact fun hmem => hnew e he (List.mem_cons_of_mem _ hmem)
    have hsize : sizeT (diskInfo space reserved path).available = usable space reserved path := by
      have hlt : usable space reserved path < 2 ^ 34 :=
        Nat.lt_of_le_of_lt (Nat.sub_le _ _) (getAvailSpaceUnderDirG_lt space path)
      rw [diskInfo, availableBehind_eq hreserved, sizeT]
      dsimp only
      omega
    obtain ⟨hsum, hmap⟩ := ih hrest (addDisk space reserved acc path) hnew'
    rw [List.foldl_cons]
    constructor
    · rw [hsum, addDisk, hsize, List.map_cons, List.sum_cons, Nat.add_assoc]
    · refine hmap.trans ?_
      rw [List.map_cons]
      exact (hperm.append_right _).trans (List.perm_middle.symm)

/-! ### Assigning -/

theorem after_assign {path : Bytes} {d : DiskInfo} (hleft : 0 ≤ d.left) (k : Nat) :
    after assign k (path, d) =
      (path, { d with increased := d.increased + min (k : Int) d.left, left := d.left - min (k : Int) d.left }) := by
  induction k with
  | zero =>
    have hmin : min ((0 : Nat) : Int) d.left = 0 := min_eq_left hleft
    rw [hmin, after, Int.add_zero, Int.sub_zero]
  | succ k ih =>
    rw [after, ih, assign]
    dsimp only
    split_ifs with hpos
    · have hk : (k : Int) < d.left := by omega
      have h1 : min (k : Int) d.left = k := by omega
      have h2 : min ((k + 1 : Nat) : Int) d.left = k + 1 := by omega
      rw [Option.getD_some, h1, h2]
      simp only [Prod.mk.injEq, DiskInfo.mk.injEq, true_and]
      omega
    · have hmin : min (k : Int) d.left = min ((k + 1 : Nat) : Int) d.left := by omega
      rw [Option.getD_none, hmin]

theorem assign_left {a b : Bytes × DiskInfo} (h : assign a = some b) :
    b.2.left.toNat + 1 = a.2.left.toNat := by
  unfold assign at h
  split_ifs at h with hpos
  rw [← Option.some.inj h]
  dsimp only
  omega

theorem assign_none {a : Bytes × DiskInfo} (h : assign a = none) : a.2.left.toNat = 0 := by
  unfold assign at h
  split_ifs at h with hpos
  omega

theorem assign_spread {paths : List Bytes} {m : DiskMap} {c fuel : Nat}
    (hreserved : reserved < 2 ^ 63)
    (hm : m.Perm (paths.map fun path => (path, diskInfo space reserved path)))
    {r : DiskMap × DiskMap} (h : cycle assign fuel c [] m = some r) :
    Spread space reserved paths c r.2 := by
  have hstart : ∀ a ∈ m, ∃ path, a = (path, diskInfo space reserved path) := by
    intro a ha
    obtain ⟨path, -, rfl⟩ := List.mem_map.mp (hm.mem_iff.mp ha)
    exact ⟨path, rfl⟩
  have hleft : ∀ path, (diskInfo space reserved path).left = usable space reserved path :=
    fun path => by rw [diskInfo, availableBehind_eq hreserved]
  obtain ⟨k, i, hround⟩ := cycle_cutAt h
  -- Every disk got `k` or `k + 1` units, or all it had.
  have hunits : ∀ e ∈ r.2, ∃ n : Int, (n = k ∨ n = k + 1) ∧
      e.2.increased = min n (usable space reserved e.1) ∧
      e.2.left = usable space reserved e.1 - min n (usable space reserved e.1) := by
    intro e he
    rw [hround] at he
    obtain ⟨a, ha, hrounds⟩ := exists_after_of_mem he
    obtain ⟨path, rfl⟩ := hstart a ha
    have hpos : 0 ≤ (diskInfo space reserved path).left := by
      rw [hleft]
      exact Int.natCast_nonneg _
    rw [after_assign hpos, after_assign hpos, hleft] at hrounds
    rcases hrounds with rfl | rfl
    · exact ⟨k, .inl rfl, Int.zero_add _, rfl⟩
    · exact ⟨(k + 1 : Nat), .inr rfl, Int.zero_add _, rfl⟩
  have hkeys : r.2.map Prod.fst = m.map Prod.fst := by
    refine cycle_map (fun a b htake => ?_) h
    unfold assign at htake
    split_ifs at htake
    rw [← Option.some.inj htake]
  have hsum : (r.2.map fun e => e.2.increased).sum + (r.1.map fun _ => (-1 : Int)).sum =
      (m.map fun e => e.2.increased).sum := by
    refine cycle_conserves (fun a b htake => ?_) h
    unfold assign at htake
    split_ifs at htake
    rw [← Option.some.inj htake]
    dsimp only
    omega
  have hnone : (m.map fun e => e.2.increased).sum = 0 := by
    rw [(hm.map _).sum_eq, List.map_map]
    exact List.sum_eq_zero fun x hx => by
      obtain ⟨path, -, rfl⟩ := List.mem_map.mp hx
      rfl
  have htaken : (r.1.map fun _ => (-1 : Int)).sum = -c := by
    rw [List.map_const', List.sum_replicate, cycle_length h]
    simp
  constructor
  · rw [hkeys]
    refine (hm.map _).trans ?_
    rw [List.map_map]
    exact List.Perm.of_eq (List.map_id _)
  · rw [hnone, htaken] at hsum
    omega
  · intro e he
    obtain ⟨n, hn, hinc, hleft⟩ := hunits e he
    omega
  · intro e he f hf hel hfl
    obtain ⟨n, hn, hinc, hleft⟩ := hunits e he
    obtain ⟨n', hn', hinc', hleft'⟩ := hunits f hf
    omega

variable (space) in
theorem getIncreaseSrdInfo_spread {disks : Disks} {config : SrdConfig} {paths : List Bytes}
    (hpaths : diskPaths disks config = some paths) (hreserved : reserved < 2 ^ 63) (c : Nat) :
    ∃ info, (∀ fuel, paths.length * c ≤ fuel →
        getIncreaseSrdInfo fuel disks space config reserved c =
          some (min (paths.map (usable space reserved)).sum c, info)) ∧
      Spread space reserved paths (min (paths.map (usable space reserved)).sum c) info := by
  obtain ⟨hsum, hperm⟩ := foldl_addDisk space hreserved (diskPaths_nodup hpaths) (0, []) nofun
  rw [Nat.zero_add] at hsum
  rw [List.nil_append] at hperm
  generalize hfound : paths.foldl (addDisk space reserved) (0, []) = found at hsum hperm
  have hcap : (found.2.map fun a => a.2.left.toNat).sum = (paths.map (usable space reserved)).sum := by
    rw [(hperm.map _).sum_eq, List.map_map]
    refine congrArg List.sum (List.map_congr_left fun path _ => ?_)
    rw [Function.comp_apply, diskInfo, availableBehind_eq hreserved]
    exact Int.toNat_natCast _
  have hacc : min found.1 c ≤ (found.2.map fun a => a.2.left.toNat).sum := by
    rw [hcap, ← hsum]
    exact Nat.min_le_left _ _
  obtain ⟨r, hr⟩ : ∃ r, ∀ fuel, found.2.length * min found.1 c ≤ fuel →
      cycle assign fuel (min found.1 c) [] found.2 = some r :=
    cycle_total (fun _ _ => assign_left) (fun _ => assign_none) hacc
  have hrounds : found.2.length * min found.1 c ≤ paths.length * c := by
    rw [hperm.length_eq, List.length_map]
    exact Nat.mul_le_mul_left _ (Nat.min_le_right _ _)
  refine ⟨r.2, fun fuel hfuel => ?_, ?_⟩
  · rw [getIncreaseSrdInfo, hpaths, Option.bind_some, hfound]
    dsimp only
    rw [hr fuel (hrounds.trans hfuel), hsum]
    rfl
  · rw [← hsum]
    exact assign_spread hreserved hperm (hr _ (Nat.le_refl _))

end

/-! ### Listing the tasks -/

theorem expand_increased {a b : Bytes × DiskInfo} (h : expand a = some b) :
    b.1 = a.1 ∧ b.2.increased + 1 = a.2.increased ∧ 0 ≤ b.2.increased := by
  unfold expand at h
  split_ifs at h with hpos
  rw [← Option.some.inj h]
  exact ⟨rfl, by dsimp only; omega, by dsimp only; omega⟩

theorem expand_none {a : Bytes × DiskInfo} (h : expand a = none) : a.2.increased.toNat = 0 := by
  unfold expand at h
  split_ifs at h with hpos
  omega

theorem sum_eq_zero_of_nonneg {α : Type} {f : α → Int} {l : List α} (h : ∀ a ∈ l, 0 ≤ f a)
    (hsum : (l.map f).sum = 0) : ∀ a ∈ l, f a = 0 := by
  induction l with
  | nil => exact nofun
  | cons b l ih =>
    have hrest : ∀ a ∈ l, 0 ≤ f a := fun a ha => h a (List.mem_cons_of_mem _ ha)
    have hb := h b List.mem_cons_self
    have hpos : 0 ≤ (l.map f).sum := List.sum_nonneg fun x hx => by
      obtain ⟨a, ha, rfl⟩ := List.mem_map.mp hx
      exact hrest a ha
    rw [List.map_cons, List.sum_cons] at hsum
    intro a ha
    rcases List.mem_cons.mp ha with rfl | ha
    · omega
    · exact ih hrest (by omega) a ha

theorem sum_at_path {m : DiskMap} (hm : (m.map Prod.fst).Nodup) {e : Bytes × DiskInfo} (he : e ∈ m) :
    (m.map fun a => if a.1 = e.1 then a.2.increased else 0).sum = e.2.increased := by
  induction m with
  | nil => cases he
  | cons a m ih =>
    rw [List.map_cons, List.nodup_cons] at hm
    rw [List.map_cons, List.sum_cons]
    rcases List.mem_cons.mp he with rfl | he
    · have hrest : (m.map fun a => if a.1 = e.1 then a.2.increased else 0).sum = 0 :=
        List.sum_eq_zero fun x hx => by
          obtain ⟨a, ha, rfl⟩ := List.mem_map.mp hx
          refine if_neg fun hsame => hm.1 ?_
          rw [← hsame]
          exact List.mem_map_of_mem ha
      rw [if_pos rfl, hrest, Int.add_zero]
    · have hne : a.1 ≠ e.1 := by
        intro hsame
        rw [hsame] at hm
        exact hm.1 (List.mem_map_of_mem he)
      rw [if_neg hne, Int.zero_add, ih hm.2 he]

theorem count_eq_sum (l : DiskMap) (path : Bytes) :
    ((l.map Prod.fst).count path : Int) = (l.map fun a => if a.1 = path then 1 else 0).sum := by
  induction l with
  | nil => rfl
  | cons a l ih =>
    rw [List.map_cons, List.count_cons, List.map_cons, List.sum_cons, ← ih]
    by_cases ha : a.1 = path
    · simp [ha, add_comm]
    · simp [ha]

theorem expand_lists {info : DiskMap} {c : Nat} (hkeys : (info.map Prod.fst).Nodup)
    (hpos : ∀ e ∈ info, 0 ≤ e.2.increased)
    (hsum : (info.map fun e => e.2.increased).sum = c) :
    ∃ r, (∀ fuel, info.length * c ≤ fuel → cycle expand fuel c [] info = some r) ∧
      r.1.length = c ∧ (∀ e ∈ info, ((r.1.map Prod.fst).count e.1 : Int) = e.2.increased) ∧
      ∀ t ∈ r.1, t.1 ∈ info.map Prod.fst := by
  have hcap : (((info.map fun a => a.2.increased.toNat).sum : Nat) : Int) = c := by
    rw [← hsum, Nat.cast_list_sum, List.map_map]
    refine congrArg List.sum (List.map_congr_left fun a ha => ?_)
    exact Int.toNat_of_nonneg (hpos a ha)
  obtain ⟨r, hr⟩ : ∃ r, ∀ fuel, info.length * c ≤ fuel → cycle expand fuel c [] info = some r := by
    have hone : ∀ a b, expand a = some b → b.2.increased.toNat + 1 = a.2.increased.toNat := by
      intro a b h
      have := expand_increased h
      omega
    exact cycle_total hone (fun _ => expand_none) (by omega)
  have hrun := hr _ (Nat.le_refl _)
  have hlen := cycle_length hrun
  have hnonneg : ∀ a ∈ r.2, 0 ≤ a.2.increased :=
    (cycle_forall (fun a b h _ => (expand_increased h).2.2) hrun hpos).2
  have hused : (r.2.map fun a => a.2.increased).sum + (r.1.map fun _ => (1 : Int)).sum =
      (info.map fun a => a.2.increased).sum :=
    cycle_conserves (fun a b h => (expand_increased h).2.1) hrun
  rw [List.map_const', List.sum_replicate, hlen, hsum, nsmul_eq_mul, mul_one] at hused
  have hzero := sum_eq_zero_of_nonneg hnonneg (by omega)
  refine ⟨r, hr, hlen, fun e he => ?_, fun t ht => ?_⟩
  · have hpath : (r.2.map fun a => if a.1 = e.1 then a.2.increased else 0).sum +
        (r.1.map fun a => if a.1 = e.1 then 1 else 0).sum =
          (info.map fun a => if a.1 = e.1 then a.2.increased else 0).sum := by
      refine cycle_conserves (fun a b h => ?_) hrun
      obtain ⟨hkey, hone, -⟩ := expand_increased h
      rw [hkey]
      split_ifs <;> omega
    have hnothing : (r.2.map fun a => if a.1 = e.1 then a.2.increased else 0).sum = 0 :=
      List.sum_eq_zero fun x hx => by
        obtain ⟨a, ha, rfl⟩ := List.mem_map.mp hx
        rw [hzero a ha, ite_self]
    rw [hnothing, Int.zero_add, ← count_eq_sum, sum_at_path hkeys he] at hpath
    exact hpath
  · refine (cycle_forall (Q := fun a => a.1 ∈ info.map Prod.fst) (fun a b h ha => ?_) hrun
      fun a ha => List.mem_map_of_mem ha).1 t ht
    rwa [(expand_increased h).1]

/-! ### The request -/

/-- The request ends with the given number of assigned units and the given messages, whatever the
fuel from a round for each unit on. -/
def Runs (disks : Disks) (space : Space) (config : SrdConfig) (reserved : Nat)
    (increased : Nat → Bool) (c rounds : Nat) (capacity : Nat) (info : DiskMap) (sent : Sent) : Prop :=
  ∀ fuel, rounds ≤ fuel →
    getIncreaseSrdInfo fuel disks space config reserved c = some (capacity, info) ∧
      srdChange fuel disks space config reserved increased c = some sent

def succeeded (increased : Nat → Bool) (sent : Sent) : Nat :=
  (List.range sent.tasks.length).countP increased

theorem countP_add_failed (increased : Nat → Bool) (n : Nat) :
    (List.range n).countP increased + ((List.range n).filter fun i => !increased i).length = n := by
  have hsplit : (List.range n).length = _ := List.length_eq_countP_add_countP increased
  rw [List.length_range] at hsplit
  rw [← List.countP_eq_length_filter]
  simpa using hsplit.symm

/-- A request of `c` units gives the disks what they have room for, in equal shares as far as
they last, and every unit is a task that succeeds or goes back to the enclave. -/
theorem srd_change_spread {disks : Disks} {config : SrdConfig} {paths : List Bytes}
    (hpaths : diskPaths disks config = some paths) (space : Space) {reserved c : Nat}
    (hreserved : reserved < 2 ^ 63) (hc : c < 2 ^ 63) (increased : Nat → Bool) :
    ∃ info sent,
      Runs disks space config reserved increased c (paths.length * c)
        (min (paths.map (usable space reserved)).sum c) info sent ∧
      Spread space reserved paths (min (paths.map (usable space reserved)).sum c) info ∧
      (∀ e ∈ info, (sent.tasks.count e.1 : Int) = e.2.increased) ∧
      (∀ t ∈ sent.tasks, t ∈ paths) ∧
      (c : Int) = succeeded increased sent + sent.setChanges.sum := by
  obtain ⟨info, hinfo, hspread⟩ := getIncreaseSrdInfo_spread space hpaths hreserved c
  generalize hcapacity : min (paths.map (usable space reserved)).sum c = capacity at hinfo hspread
  have hle : capacity ≤ c := hcapacity ▸ Nat.min_le_right _ _
  generalize hleftover : (if (c : Int) > toLong capacity then [(c : Int) - capacity] else []) =
    leftover at *
  have hleft : leftover.sum = c - capacity := by
    rw [← hleftover, toLong_of_lt (Nat.lt_of_le_of_lt hle hc)]
    split_ifs with hmore
    · exact List.sum_singleton
    · rw [List.sum_nil]
      omega
  have hpos : ∀ e ∈ info, 0 ≤ e.2.increased := fun e he => (hspread.within e he).1
  by_cases hzero : capacity = 0
  · have hnothing := sum_eq_zero_of_nonneg hpos (by rw [hspread.assigned, hzero]; rfl)
    refine ⟨info, ⟨leftover, [], 0⟩, fun fuel hfuel => ⟨hinfo fuel hfuel, ?_⟩, hspread, ?_, nofun, ?_⟩
    · rw [srdChange, hinfo fuel hfuel, Option.bind_some]
      dsimp only
      rw [if_pos hzero, hleftover]
    · intro e he
      rw [hnothing e he]
      rfl
    · rw [hleft, hzero]
      simp [succeeded]
  · have hkeys : (info.map Prod.fst).Nodup := (hspread.disks.nodup_iff).mpr (diskPaths_nodup hpaths)
    obtain ⟨r, hr, hlen, hcount, htasks⟩ := expand_lists hkeys hpos hspread.assigned
    have hrounds : info.length * capacity ≤ paths.length * c := by
      have hlength := hspread.disks.length_eq
      rw [List.length_map] at hlength
      rw [hlength]
      exact Nat.mul_le_mul_left _ hle
    refine ⟨info, ⟨leftover ++ ((List.range r.1.length).filter fun i => !increased i).map fun _ => 1,
      r.1.map Prod.fst, Int.bmod capacity (2 ^ 32)⟩, fun fuel hfuel => ⟨hinfo fuel hfuel, ?_⟩,
      hspread, hcount, ?_, ?_⟩
    · rw [srdChange, hinfo fuel hfuel, Option.bind_some]
      dsimp only
      rw [if_neg hzero, hr fuel (hrounds.trans hfuel), Option.map_some, hleftover]
    · intro t ht
      obtain ⟨a, ha, rfl⟩ := List.mem_map.mp ht
      exact hspread.disks.mem_iff.mp (htasks a ha)
    · have hfailed := countP_add_failed increased r.1.length
      rw [List.sum_append, hleft, List.map_const', List.sum_replicate, succeeded, List.length_map]
      simp only [nsmul_eq_mul, mul_one]
      omega

/-! ### Two disks -/

def twoConfig : SrdConfig := ⟨[str "/a", str "/b"], str "/srd"⟩

def twoSpaces : Space where
  avail := fun path => some
    { fBlocks := 100
      fBavail := if path = str "/a" then 53 else 51
      fBsize := 0x40000000
      fFsid := twoFsids 5 path }
  total := fun _ => none

theorem twoConfig_paths : diskPaths (twoDisks 5) twoConfig = some [str "/a", str "/b"] := by
  decide +kernel

theorem srd_change_spread_two :
    ∃ info sent,
      Runs (twoDisks 5) twoSpaces twoConfig 50 (fun i => i ≠ 0) 6 ([str "/a", str "/b"].length * 6)
        (min ([str "/a", str "/b"].map (usable twoSpaces 50)).sum 6) info sent ∧
      Spread twoSpaces 50 [str "/a", str "/b"]
        (min ([str "/a", str "/b"].map (usable twoSpaces 50)).sum 6) info ∧
      (∀ e ∈ info, (sent.tasks.count e.1 : Int) = e.2.increased) ∧
      (∀ t ∈ sent.tasks, t ∈ [str "/a", str "/b"]) ∧
      ((6 : Nat) : Int) = succeeded (fun i => i ≠ 0) sent + sent.setChanges.sum :=
  srd_change_spread twoConfig_paths twoSpaces (by decide) (by decide) _

/-- A task that fails goes back although it was dispatched, and a reserve that a `long` reads as
negative lets the assignment run forever. -/
theorem srd_change_counts_failed_twice :
    (¬ ∀ (disks : Disks) (space : Space) (config : SrdConfig) (reserved : Nat)
      (increased : Nat → Bool) (c fuel : Nat) (sent : Sent), 0 < c → reserved < 2 ^ 63 →
      srdChange fuel disks space config reserved increased c = some sent →
      (c : Int) = sent.tasks.length + sent.setChanges.sum) ∧
    ¬ ∀ (disks : Disks) (space : Space) (config : SrdConfig) (reserved c : Nat) (paths : List Bytes),
      diskPaths disks config = some paths → 0 < c →
      ∃ fuel r, getIncreaseSrdInfo fuel disks space config reserved c = some r := by
  constructor
  · intro hclaim
    have hrun : (srdChange 12 (twoDisks 5) twoSpaces twoConfig 50 (fun i => i ≠ 0) 6).map
        (fun sent => (sent.tasks.length + sent.setChanges.sum : Int)) = some 7 := by decide +kernel
    obtain ⟨sent, hsent, hsum⟩ := Option.map_eq_some_iff.mp hrun
    have hsix := hclaim _ _ _ _ _ 6 12 sent (by decide) (by decide) hsent
    rw [hsum] at hsix
    exact absurd hsix (by decide)
  · intro hclaim
    have hpaths : diskPaths (twoDisks 5) ⟨[], str "/srd"⟩ = some [str "/srd"] := by decide +kernel
    obtain ⟨fuel, r, hr⟩ := hclaim (twoDisks 5) twoSpaces ⟨[], str "/srd"⟩ (2 ^ 63) 1 _ hpaths
      (by decide)
    have hnone : ∀ fuel, cycle assign fuel 1 []
        [(str "/srd", diskInfo twoSpaces (2 ^ 63) (str "/srd"))] = none := by
      intro fuel
      have hstuck : assign (str "/srd", diskInfo twoSpaces (2 ^ 63) (str "/srd")) = none := by
        decide +kernel
      induction fuel with
      | zero => rfl
      | succ fuel ih =>
        rw [cycle_cons_none hstuck]
        exact ih
    rw [getIncreaseSrdInfo, hpaths, Option.bind_some] at hr
    have hcapacity : min ([str "/srd"].foldl (addDisk twoSpaces (2 ^ 63)) (0, [])).1 1 = 1 := by
      decide +kernel
    dsimp only at hr
    rw [hcapacity] at hr
    obtain ⟨q, hq, -⟩ := Option.map_eq_some_iff.mp hr
    exact absurd ((hnone fuel).symm.trans hq) nofun

end CrustSworker.SrdSpread

import CrustSworker.SrdLimit
import CrustSworker.Surface

/-!
# Drawing what is validated

`validate_srd` draws a path and then a position in its list, `validate_meaningful_file` draws
files and one block of each; a draw is `rand_val % n`. The numbers of files and of blocks are not
zero where they divide. The list of a drawn path is, unless every step that can take a hash away
leaves each path one, or so few hashes that all of them are validated without a draw.
-/

namespace CrustSworker.SrdSampling

open OrderedMap Srd SrdInfo

variable {τ : Type}

def pick (randVal : UInt32) (n : Nat) : Option Nat :=
  if n = 0 then none else some (randVal.toNat % n)

theorem pick_of_ne {n : Nat} (h : n ≠ 0) (randVal : UInt32) :
    pick randVal n = some (randVal.toNat % n) := if_neg h

/-! ### G hashes -/

def srdValidateMinNum : Nat := 64

def srdNumThreshold : Nat := 3200

def srdValidateNum (total : Nat) : Nat :=
  if total ≥ srdNumThreshold then total / 50
  else if total < srdValidateMinNum then total
  else srdValidateMinNum

def insertPair (p : Nat × Nat) : List (Nat × Nat) → List (Nat × Nat)
  | [] => [p]
  | q :: s =>
    if p = q then q :: s
    else if p.1 < q.1 ∨ p.1 = q.1 ∧ p.2 < q.2 then p :: q :: s
    else q :: insertPair p s

def chooseSrd (rand : Nat → UInt32) (m : PathMap) (i : Nat) : Option (Nat × Nat) :=
  match pick (rand (2 * i)) m.length with
  | none => none
  | some pathIdx =>
    match m[pathIdx]? with
    | none => none
    | some entry => (pick (rand (2 * i + 1)) entry.2.length).map fun randIdx => (pathIdx, randIdx)

def chooseSrds (rand : Nat → UInt32) (m : PathMap) :
    List Nat → List (Nat × Nat) → Option (List (Nat × Nat))
  | [], s => some s
  | i :: is, s =>
    match chooseSrd rand m i with
    | none => none
    | some p => chooseSrds rand m is (insertPair p s)

def allPairs (m : PathMap) : List (Nat × Nat) :=
  m.zipIdx.flatMap fun e => (List.range e.1.2.length).map fun j => (e.2, j)

def validateSrdIdxs (rand : Nat → UInt32) (m : PathMap) : Option (List (Nat × Nat)) :=
  if srdValidateNum (srdTotal m) < srdTotal m then
    chooseSrds rand m (List.range (srdValidateNum (srdTotal m))) []
  else some (allPairs m)

/-! ### Files and blocks -/

def picks (rand : Nat → UInt32) (n : Nat) : List Nat → Option (List Nat)
  | [] => some []
  | k :: ks =>
    match pick (rand k) n, picks rand n ks with
    | some i, some is => some (i :: is)
    | _, _ => none

def drawFiles (rand : Nat → UInt32) (n : Nat) : Option (List Nat) :=
  picks rand n (List.range (Surface.checkFileNum n))

def drawBlocks (rand : Nat → UInt32) (fileBlockNum : Nat) : Option (List Nat) :=
  (picks rand fileBlockNum
    (List.range (min meaningfulValidateMinBlockNum fileBlockNum))).map fun is =>
      is.foldl (fun s i => Validator.insertSorted i s) []

/-- Every division of the two validations is by a number other than zero, and what is drawn
is there. -/
structure SamplingSafe (wl : Workload τ) : Prop where
  srd : ∀ rand, ∃ idxs, validateSrdIdxs rand wl.srdPath2hashs = some idxs ∧
    ∀ p ∈ idxs, ∃ entry, wl.srdPath2hashs[p.1]? = some entry ∧ p.2 < entry.2.length
  files : ∀ (checkedFiles : List (FileItem τ)) (rand : Nat → UInt32),
    ∃ idxs, drawFiles rand checkedFiles.length = some idxs ∧ ∀ i ∈ idxs, i < checkedFiles.length
  blocks : ∀ (f : FileItem τ) (rand : Nat → UInt32),
    ∃ idxs, drawBlocks rand (sizeT (f.json.get fileBlockNum).toInt) = some idxs ∧
      ∀ b ∈ idxs, b < sizeT (f.json.get fileBlockNum).toInt

def Drawable (m : PathMap) : Prop :=
  srdTotal m ≤ srdValidateMinNum ∨ ∀ entry ∈ m, entry.2 ≠ []

theorem picks_eq {rand : Nat → UInt32} {n : Nat} {ks : List Nat} (h : ks ≠ [] → n ≠ 0) :
    picks rand n ks = some (ks.map fun k => (rand k).toNat % n) := by
  induction ks with
  | nil => rfl
  | cons k ks ih =>
    have hn : n ≠ 0 := h (List.cons_ne_nil _ _)
    rw [picks, pick_of_ne hn, ih fun _ => hn]
    rfl

theorem drawFiles_eq (rand : Nat → UInt32) (n : Nat) :
    drawFiles rand n = some (Surface.fileIdxs rand n) := by
  refine picks_eq fun hne => ?_
  rintro rfl
  exact hne rfl

theorem lt_of_mem_fileIdxs {rand : Nat → UInt32} {n i : Nat} (h : i ∈ Surface.fileIdxs rand n) :
    i < n := by
  obtain ⟨k, hk, rfl⟩ := List.mem_map.mp h
  refine Nat.mod_lt _ (Nat.pos_of_ne_zero ?_)
  rintro rfl
  cases hk

theorem drawBlocks_eq (rand : Nat → UInt32) (n : Nat) :
    drawBlocks rand n = some (Validator.blockIdxs rand n) := by
  rw [drawBlocks, picks_eq, Option.map_some, List.foldl_map]
  · rfl
  · rintro hne rfl
    exact hne rfl

theorem mem_insertSorted {i j : Nat} {s : List Nat} (h : j ∈ Validator.insertSorted i s) :
    j = i ∨ j ∈ s := by
  induction s with
  | nil => exact .inl (List.mem_singleton.mp h)
  | cons a s ih =>
    rw [Validator.insertSorted] at h
    split_ifs at h
    · exact .inr h
    · exact List.mem_cons.mp h
    · rcases List.mem_cons.mp h with rfl | h
      · exact .inr List.mem_cons_self
      · exact (ih h).imp id (List.mem_cons_of_mem _)

theorem lt_of_mem_blockIdxs {rand : Nat → UInt32} {n b : Nat}
    (h : b ∈ Validator.blockIdxs rand n) : b < n := by
  have hgo : ∀ (ks : List Nat) (s : List Nat), (∀ k ∈ ks, 0 < n) → (∀ i ∈ s, i < n) →
      ∀ i ∈ ks.foldl (fun s k => Validator.insertSorted ((rand k).toNat % n) s) s, i < n := by
    intro ks
    induction ks with
    | nil => exact fun s _ hs => hs
    | cons k ks ih =>
      intro s hk hs
      refine ih _ (fun k' hk' => hk k' (List.mem_cons_of_mem _ hk')) fun i hi => ?_
      rcases mem_insertSorted hi with rfl | hi
      · exact Nat.mod_lt _ (hk k List.mem_cons_self)
      · exact hs i hi
  refine hgo _ [] (fun k hk => ?_) nofun b h
  have := List.mem_range.mp hk
  omega

/-! ### Drawing from a map -/

section
variable {m : PathMap} {rand : Nat → UInt32}

theorem srdValidateNum_lt {total : Nat} : srdValidateNum total < total ↔ 64 < total := by
  unfold srdValidateNum srdNumThreshold srdValidateMinNum
  split_ifs
  · omega
  · omega
  · omega

def InMap (m : PathMap) (p : Nat × Nat) : Prop :=
  ∃ entry, m[p.1]? = some entry ∧ p.2 < entry.2.length

theorem mem_insertPair {p q : Nat × Nat} {s : List (Nat × Nat)} (h : q ∈ insertPair p s) :
    q = p ∨ q ∈ s := by
  induction s with
  | nil => exact .inl (List.mem_singleton.mp h)
  | cons a s ih =>
    rw [insertPair] at h
    split_ifs at h
    · exact .inr h
    · exact List.mem_cons.mp h
    · rcases List.mem_cons.mp h with rfl | h
      · exact .inr List.mem_cons_self
      · exact (ih h).imp id (List.mem_cons_of_mem _)

theorem inMap_of_mem_allPairs {p : Nat × Nat} (h : p ∈ allPairs m) : InMap m p := by
  obtain ⟨⟨entry, i⟩, he, hp⟩ := List.mem_flatMap.mp h
  obtain ⟨j, hj, rfl⟩ := List.mem_map.mp hp
  exact ⟨entry, List.mem_zipIdx_iff_getElem?.mp he, List.mem_range.mp hj⟩

theorem chooseSrd_some (hm : m ≠ []) (hne : ∀ entry ∈ m, entry.2 ≠ []) (i : Nat) :
    ∃ p, chooseSrd rand m i = some p ∧ InMap m p := by
  have hpos : m.length ≠ 0 := fun h => hm (List.eq_nil_of_length_eq_zero h)
  have hlt : (rand (2 * i)).toNat % m.length < m.length := Nat.mod_lt _ (Nat.pos_of_ne_zero hpos)
  have hget := List.getElem?_eq_getElem hlt
  have hlen : (m[(rand (2 * i)).toNat % m.length]).2.length ≠ 0 := fun h =>
    hne _ (List.getElem_mem hlt) (List.eq_nil_of_length_eq_zero h)
  refine ⟨((rand (2 * i)).toNat % m.length, (rand (2 * i + 1)).toNat %
    (m[(rand (2 * i)).toNat % m.length]).2.length), ?_, _, hget,
    Nat.mod_lt _ (Nat.pos_of_ne_zero hlen)⟩
  rw [chooseSrd, pick_of_ne hpos]
  dsimp only
  rw [hget]
  dsimp only
  rw [pick_of_ne hlen]
  rfl

theorem chooseSrds_some (hm : m ≠ []) (hne : ∀ entry ∈ m, entry.2 ≠ []) (is : List Nat)
    {s : List (Nat × Nat)} (hs : ∀ p ∈ s, InMap m p) :
    ∃ idxs, chooseSrds rand m is s = some idxs ∧ ∀ p ∈ idxs, InMap m p := by
  induction is generalizing s with
  | nil => exact ⟨s, rfl, hs⟩
  | cons i is ih =>
    obtain ⟨p, hp, hin⟩ : ∃ p, chooseSrd rand m i = some p ∧ InMap m p := chooseSrd_some hm hne i
    rw [chooseSrds, hp]
    refine ih fun q hq => ?_
    rcases mem_insertPair hq with rfl | hq
    · exact hin
    · exact hs q hq

theorem validateSrdIdxs_some (h : Drawable m) (rand : Nat → UInt32) :
    ∃ idxs, validateSrdIdxs rand m = some idxs ∧ ∀ p ∈ idxs, InMap m p := by
  unfold validateSrdIdxs
  by_cases hnum : srdValidateNum (srdTotal m) < srdTotal m
  · rw [if_pos hnum]
    have hmany := srdValidateNum_lt.mp hnum
    have hne : ∀ entry ∈ m, entry.2 ≠ [] := by
      refine h.resolve_left fun hle => ?_
      unfold srdValidateMinNum at hle
      omega
    have hm : m ≠ [] := by
      rintro rfl
      cases hmany
    exact chooseSrds_some hm hne _ nofun
  · rw [if_neg hnum]
    exact ⟨_, rfl, fun p hp => inMap_of_mem_allPairs hp⟩

theorem validateSrdIdxs_none (hmany : srdValidateMinNum < srdTotal m) {i : Nat}
    (hi : i < 2 ^ 32) {entry : Bytes × List Bytes} (he : m[i]? = some entry)
    (hempty : entry.2 = []) : validateSrdIdxs (fun _ => UInt32.ofNat i) m = none := by
  obtain ⟨hlt, -⟩ := List.getElem?_eq_some_iff.mp he
  have hnum : srdValidateNum (srdTotal m) < srdTotal m := srdValidateNum_lt.mpr hmany
  have hval : (UInt32.ofNat i).toNat % m.length = i := by
    rw [UInt32.toNat_ofNat_of_lt' hi, Nat.mod_eq_of_lt hlt]
  have hfirst : chooseSrd (fun _ => UInt32.ofNat i) m 0 = none := by
    rw [chooseSrd, pick_of_ne (by omega), hval]
    dsimp only
    rw [he]
    dsimp only
    rw [hempty]
    rfl
  rw [validateSrdIdxs, if_pos hnum]
  obtain ⟨n, hn⟩ : ∃ n, srdValidateNum (srdTotal m) = n + 1 := by
    refine Nat.exists_eq_succ_of_ne_zero ?_
    unfold srdValidateNum srdNumThreshold srdValidateMinNum
    unfold srdValidateMinNum at hmany
    split_ifs
    · omega
    · omega
    · omega
  rw [hn, List.range_succ_eq_map, chooseSrds, hfirst]

theorem samplingSafe_of_drawable {wl : Workload τ} (h : Drawable wl.srdPath2hashs) :
    SamplingSafe wl where
  srd := validateSrdIdxs_some h
  files _ rand := ⟨_, drawFiles_eq rand _, fun _ => lt_of_mem_fileIdxs⟩
  blocks _ rand := ⟨_, drawBlocks_eq rand _, fun _ => lt_of_mem_blockIdxs⟩

/-- As long as a 32-bit number can name every path there is no other way to be safe. -/
theorem samplingSafe_iff {wl : Workload τ} (hpaths : wl.srdPath2hashs.length ≤ 2 ^ 32) :
    SamplingSafe wl ↔ Drawable wl.srdPath2hashs := by
  constructor
  · intro hsafe
    by_contra hnot
    obtain ⟨hmany, hne⟩ := not_or.mp hnot
    push Not at hne
    obtain ⟨entry, he, hempty⟩ := hne
    obtain ⟨i, hlt, hi⟩ := List.getElem_of_mem he
    have hget : wl.srdPath2hashs[i]? = some entry := by rw [List.getElem?_eq_getElem hlt, hi]
    obtain ⟨idxs, hidxs, -⟩ := hsafe.srd fun _ => UInt32.ofNat i
    rw [validateSrdIdxs_none (by omega) (by omega) hget hempty] at hidxs
    cases hidxs
  · exact samplingSafe_of_drawable

end

/-! ### What the steps leave -/

def lens (m : PathMap) (path : Bytes) : Option Nat := (findKey path m).map List.length

theorem lens_insertKey (m : PathMap) (q p : Bytes) (v : List Bytes) :
    lens (insertKey ltBytes q v m) p = if p = q then some v.length else lens m p := by
  unfold lens
  split_ifs with h
  · subst h
    rw [findKey_insertKey_self]
    rfl
  · rw [findKey_insertKey_ne ltBytes h]

theorem lens_getD (m : PathMap) (path : Bytes) : (lens m path).getD 0 = (hashsOf m path).length := by
  unfold lens hashsOf
  cases findKey path m with
  | none => rfl
  | some hs => rfl

theorem no_empty_iff {m : PathMap} (hm : Sorted ltBytes m) :
    (∀ entry ∈ m, entry.2 ≠ []) ↔ ∀ path, lens m path ≠ some 0 := by
  constructor
  · intro h path hlen
    obtain ⟨hs, hfind, hzero⟩ := Option.map_eq_some_iff.mp hlen
    exact h _ (mem_of_findKey hfind) (List.eq_nil_of_length_eq_zero hzero)
  · intro h entry he hempty
    refine h entry.1 ?_
    rw [lens, findKey_of_mem isOrder_ltBytes hm he, hempty]
    rfl

/-- `k` hashes are gone, of each path as many as `n` says. -/
structure Dropped (n : Bytes → Nat) (k : Nat) (m m' : PathMap) : Prop where
  sorted : Sorted ltBytes m'
  total : srdTotal m' + k = srdTotal m
  lens : ∀ path, lens m' path = (lens m path).map fun len => len - n path

section
variable {m m₁ m₂ : PathMap} {n n₁ n₂ : Bytes → Nat} {k k₁ k₂ : Nat}

theorem Dropped.refl (hm : Sorted ltBytes m) (hn : ∀ path, n path = 0) : Dropped n 0 m m where
  sorted := hm
  total := rfl
  lens path := by
    rw [hn]
    cases SrdSampling.lens m path with
    | none => rfl
    | some len => rfl

theorem Dropped.trans (h₁ : Dropped n₁ k₁ m m₁) (h₂ : Dropped n₂ k₂ m₁ m₂)
    (hn : ∀ path, n path = n₁ path + n₂ path) : Dropped n (k₁ + k₂) m m₂ where
  sorted := h₂.sorted
  total := by
    have ht₁ := h₁.total
    have ht₂ := h₂.total
    omega
  lens path := by
    rw [h₂.lens, h₁.lens, Option.map_map, hn]
    congr 1
    funext len
    exact Nat.sub_sub len (n₁ path) (n₂ path)

theorem dropped_insertKey (hm : Sorted ltBytes m) {path : Bytes} {v : List Bytes}
    (hv : v.length + 1 = (hashsOf m path).length) :
    Dropped (fun p => if p = path then 1 else 0) 1 m (insertKey ltBytes path v m) where
  sorted := hm.insertKey isOrder_ltBytes _ _
  total := by
    have h := SrdLimit.srdTotal_insertKey hm path v
    omega
  lens p := by
    rw [lens_insertKey]
    have hlen := lens_getD m path
    split_ifs with hp
    · subst hp
      cases hl : SrdSampling.lens m p with
      | none =>
        rw [hl] at hlen
        simp only [Option.getD_none] at hlen
        omega
      | some len =>
        rw [hl] at hlen
        simp only [Option.getD_some] at hlen
        simp only [Option.map_some, Option.some.injEq]
        omega
    · cases SrdSampling.lens m p with
      | none => rfl
      | some len => rfl

end

/-! ### `srd_decrease` -/

def chosenAt (del : DelIndex) (path : Bytes) : Nat :=
  ((del.filter fun entry => decide (entry.1 = path)).map fun entry => entry.2.length).sum

theorem chosenAt_cons (entry : Bytes × List Nat) (del : DelIndex) (path : Bytes) :
    chosenAt (entry :: del) path =
      (if path = entry.1 then entry.2.length else 0) + chosenAt del path := by
  unfold chosenAt
  by_cases h : path = entry.1
  · subst h
    simp
  · rw [List.filter_cons_of_neg (by simpa using Ne.symm h), if_neg h, Nat.zero_add]

section
variable {mem : Mem} {m m' gone gone' : PathMap}

theorem erasePath_dropped (hm : Sorted ltBytes m) {path : Bytes} {is : List Nat}
    (h : erasePath mem path is m gone = some (m', gone')) :
    Dropped (fun p => if p = path then is.length else 0) is.length m m' := by
  induction is generalizing m gone with
  | nil =>
    cases h
    exact .refl hm fun p => ite_self 0
  | cons i is ih =>
    simp only [erasePath] at h
    split at h
    · cases h
    rename_i g hg
    obtain ⟨hi, -⟩ := List.getElem?_eq_some_iff.mp hg
    have hone : Dropped (fun p => if p = path then 1 else 0) 1 m
        (insertKey ltBytes path ((hashsOf m path).eraseIdx i) m) := by
      refine dropped_insertKey hm ?_
      rw [List.length_eraseIdx_of_lt hi]
      omega
    rw [List.length_cons, Nat.add_comm]
    refine hone.trans (ih hone.sorted h) fun p => ?_
    split_ifs
    · rfl
    · rfl

theorem eraseChosen_dropped (hm : Sorted ltBytes m) {del : DelIndex}
    (h : eraseChosen mem del m gone = some (m', gone')) :
    Dropped (chosenAt del) (weigh List.length del) m m' := by
  induction del generalizing m gone with
  | nil =>
    cases h
    exact .refl hm fun _ => rfl
  | cons entry del ih =>
    obtain ⟨path, idxs⟩ := entry
    simp only [eraseChosen] at h
    split at h
    · cases h
    rename_i r hr
    have hpath := erasePath_dropped hm hr
    rw [List.length_reverse] at hpath
    exact hpath.trans (ih hpath.sorted h) fun p => chosenAt_cons (path, idxs) del p

end

/-! ### `srd_update_metadata` -/

section
variable {answer : Nat → CrustStatus}

theorem popHashs_dropped {path : Bytes} {n : Nat} {u : Update} (hm : Sorted ltBytes u.m)
    (hn : n ≤ (hashsOf u.m path).length) :
    Dropped (fun p => if p = path then n else 0) n u.m (popHashs answer path n u).m := by
  induction n generalizing u with
  | zero => exact .refl hm fun p => ite_self 0
  | succ n ih =>
    have hone : Dropped (fun p => if p = path then 1 else 0) 1 u.m (popHash answer path u).m := by
      refine dropped_insertKey hm ?_
      rw [List.length_dropLast]
      omega
    have hrest : n ≤ (hashsOf (popHash answer path u).m path).length := by
      rw [popHash, hashsOf_insertKey, if_pos rfl, List.length_dropLast]
      omega
    have hboth : Dropped (fun p => if p = path then n + 1 else 0) (1 + n) u.m
        (popHashs answer path (n + 1) u).m := by
      refine hone.trans (ih hone.sorted hrest) fun p => ?_
      split_ifs
      · exact Nat.add_comm n 1
      · rfl
    rwa [Nat.add_comm 1 n] at hboth

theorem hashsOf_created (m : PathMap) (q p : Bytes) :
    hashsOf (insertKey ltBytes q (hashsOf m q) m) p = hashsOf m p := by
  rw [hashsOf_insertKey]
  split_ifs with h
  · rw [h]
  · rfl

/-- The hashes of each named path that are left, and of every other path. -/
structure Popped (fields : List (Bytes × JSON)) (m m' : PathMap) : Prop where
  sorted : Sorted ltBytes m'
  total : srdTotal m' + (fields.map fun e => realDeletedNum m e.1 e.2).sum = srdTotal m
  named : ∀ e ∈ fields,
    lens m' e.1 = some ((hashsOf m e.1).length - realDeletedNum m e.1 e.2)
  other : ∀ path, (∀ e ∈ fields, e.1 ≠ path) → lens m' path = lens m path

theorem updatePath_popped {u : Update} (hm : Sorted ltBytes u.m) (e : Bytes × JSON) :
    Popped [e] u.m (updatePath answer u e).m := by
  obtain ⟨path, v⟩ := e
  have hnew : Sorted ltBytes (insertKey ltBytes path (hashsOf u.m path) u.m) :=
    hm.insertKey isOrder_ltBytes _ _
  have htotal := SrdLimit.srdTotal_insertKey hm path (hashsOf u.m path)
  have hdrop : Dropped (fun p => if p = path then realDeletedNum u.m path v else 0)
      (realDeletedNum u.m path v) (insertKey ltBytes path (hashsOf u.m path) u.m)
      (updatePath answer u (path, v)).m := by
    refine popHashs_dropped (u := ⟨_, u.info, u.asked⟩) hnew ?_
    rw [hashsOf_created]
    exact Nat.min_le_right _ _
  refine ⟨hdrop.sorted, ?_, fun e he => ?_, fun p hp => ?_⟩
  · have hpops := hdrop.total
    rw [List.map_singleton, List.sum_singleton]
    dsimp only
    omega
  · rw [List.mem_singleton.mp he, hdrop.lens, lens_insertKey, if_pos rfl, if_pos rfl]
    rfl
  · have hne : p ≠ path := Ne.symm (hp _ (List.mem_singleton_self _))
    rw [hdrop.lens, lens_insertKey, if_neg hne, if_neg hne]
    cases lens u.m p with
    | none => rfl
    | some len => rfl

theorem Popped.hashsOf_length {fields : List (Bytes × JSON)} {m m' : PathMap}
    (h : Popped fields m m') {path : Bytes} (hp : ∀ e ∈ fields, e.1 ≠ path) :
    (hashsOf m' path).length = (hashsOf m path).length := by
  rw [← lens_getD, ← lens_getD, h.other path hp]

theorem updatePaths_popped {fields : List (Bytes × JSON)} (hf : Sorted ltBytes fields)
    {u : Update} (hm : Sorted ltBytes u.m) :
    Popped fields u.m (fields.foldl (updatePath answer) u).m := by
  induction fields generalizing u with
  | nil =>
    exact ⟨hm, rfl, nofun, fun _ _ => rfl⟩
  | cons e fields ih =>
    have hone : Popped [e] u.m (updatePath answer u e).m := updatePath_popped hm e
    have hrest := ih (List.pairwise_cons.mp hf).2 hone.sorted
    have hkeys := hf.head_ne isOrder_ltBytes
    have hlen : ∀ d ∈ fields, (hashsOf (updatePath answer u e).m d.1).length =
        (hashsOf u.m d.1).length := by
      intro d hd
      refine hone.hashsOf_length fun c hc => ?_
      rw [List.mem_singleton.mp hc]
      exact Ne.symm (hkeys d hd)
    have hreal : ∀ d ∈ fields, realDeletedNum (updatePath answer u e).m d.1 d.2 =
        realDeletedNum u.m d.1 d.2 := by
      intro d hd
      rw [realDeletedNum, realDeletedNum, hlen d hd]
    refine ⟨hrest.sorted, ?_, fun d hd => ?_, fun p hp => ?_⟩
    · have htotal := hrest.total
      have hfirst := hone.total
      rw [List.map_congr_left hreal] at htotal
      rw [List.map_singleton, List.sum_singleton] at hfirst
      rw [List.map_cons, List.sum_cons, List.foldl_cons]
      omega
    · rw [List.foldl_cons]
      rcases List.mem_cons.mp hd with rfl | hd
      · rw [hrest.other _ fun c hc => hkeys c hc, hone.named _ (List.mem_singleton_self _)]
      · rw [hrest.named d hd, hreal d hd, hlen d hd]
    · rw [List.foldl_cons, hrest.other p fun c hc => hp c (List.mem_cons_of_mem _ hc)]
      refine hone.other p fun c hc => ?_
      rw [List.mem_singleton.mp hc]
      exact hp e List.mem_cons_self

end

/-! ### `restore_srd` -/

theorem pushHash_not_empty {m : PathMap} {path g : Bytes} (h : ∀ entry ∈ m, entry.2 ≠ []) :
    ∀ entry ∈ Workload.pushHash m path g, entry.2 ≠ [] := by
  intro entry he
  rcases mem_insertKey he with rfl | he
  · exact List.concat_ne_nil _ _
  · exact h entry he

theorem restoreHashes_not_empty {malloc : Nat → Bool} {path : Bytes} {i : Nat} {hs : List JSON}
    {m m' : PathMap} (h : Workload.restoreHashes malloc path i hs m = some m')
    (hm : ∀ entry ∈ m, entry.2 ≠ []) : ∀ entry ∈ m', entry.2 ≠ [] := by
  induction hs generalizing i m with
  | nil =>
    cases h
    exact hm
  | cons j hs ih =>
    simp only [Workload.restoreHashes] at h
    split at h
    · cases h
    · exact ih h (pushHash_not_empty hm)

theorem restorePaths_not_empty {malloc : Bytes → Nat → Bool} {ps : List (Bytes × JSON)}
    {m m' : PathMap} (h : Workload.restorePaths malloc ps m = some m') (hm : ∀ entry ∈ m, entry.2 ≠ []) :
    ∀ entry ∈ m', entry.2 ≠ [] := by
  induction ps generalizing m with
  | nil =>
    cases h
    exact hm
  | cons p ps ih =>
    simp only [Workload.restorePaths] at h
    split at h
    · cases h
    rename_i m₁ hm₁
    exact ih h (restoreHashes_not_empty hm₁ hm)

theorem restoreSrd_not_empty (wl : Workload τ) (malloc : Bytes → Nat → Bool) (gHashs : JSON) :
    Sorted ltBytes (wl.restoreSrd malloc gHashs).2.srdPath2hashs ∧
      ∀ entry ∈ (wl.restoreSrd malloc gHashs).2.srdPath2hashs, entry.2 ≠ [] := by
  unfold Workload.restoreSrd
  split
  · exact ⟨sorted_nil _, nofun⟩
  · rename_i m hm
    exact ⟨restorePaths_sorted hm (sorted_nil _), restorePaths_not_empty hm nofun⟩

/-! ### Whole runs -/

def chosenDel (m : PathMap) (change : Int) (del : DelIndex) : DelIndex :=
  chooseLoop m (min change (srdTotal m)) (srdTotal m + 1) 1 del (weigh List.length del)

section
variable (sha256 : Bytes → Hash) (mem : Mem)

/-- The step leaves no more hashes than are validated without a draw, or one under every path of
the map. -/
def keepsSampling (wl : Workload τ) : Act → Prop
  | .restore _ _ => True
  | .increase env path =>
    newGHash sha256 env = none ∨ srdTotal wl.srdPath2hashs < srdValidateMinNum ∨
      ∀ entry ∈ wl.srdPath2hashs, entry.2 = [] → entry.1 = path
  | .decrease _ change del =>
    min change (srdTotal wl.srdPath2hashs) = 0 ∨
      srdTotal wl.srdPath2hashs ≤
        srdValidateMinNum + weigh List.length (chosenDel wl.srdPath2hashs change del) ∨
      ∀ entry ∈ wl.srdPath2hashs,
        chosenAt (chosenDel wl.srdPath2hashs change del) entry.1 < entry.2.length
  | .updateMetadata _ hashs =>
    ∀ doc, JsonParse.load mem hashs = .ok doc →
      srdTotal wl.srdPath2hashs ≤ srdValidateMinNum +
        (doc.objectRange.map fun e => realDeletedNum wl.srdPath2hashs e.1 e.2).sum ∨
      (∀ entry ∈ wl.srdPath2hashs, entry.2 ≠ []) ∧
        ∀ e ∈ doc.objectRange,
          realDeletedNum wl.srdPath2hashs e.1 e.2 < (hashsOf wl.srdPath2hashs e.1).length

end

def Ready (wl : Workload τ) : Prop :=
  Sorted ltBytes wl.srdPath2hashs ∧ Drawable wl.srdPath2hashs

section
variable {sha256 : Bytes → Hash} {mem : Mem} {wl wl' : Workload τ}

theorem increase_drawable {env : IncreaseEnv} {path : Bytes} (h : Ready wl) :
    Sorted ltBytes (srdIncrease sha256 env wl path).srdPath2hashs ∧
      (Drawable (srdIncrease sha256 env wl path).srdPath2hashs ↔
        keepsSampling sha256 mem wl (.increase env path)) := by
  obtain ⟨hm, hdraw⟩ := h
  unfold srdIncrease keepsSampling
  cases hg : newGHash sha256 env with
  | none => exact ⟨hm, fun _ => .inl hg, fun _ => hdraw⟩
  | some g =>
    have hm' : Sorted ltBytes (Workload.pushHash wl.srdPath2hashs path g.val) :=
      hm.insertKey isOrder_ltBytes _ _
    have hlens : ∀ p, lens (Workload.pushHash wl.srdPath2hashs path g.val) p =
        if p = path then some ((hashsOf wl.srdPath2hashs path).length + 1)
        else lens wl.srdPath2hashs p := by
      intro p
      rw [Workload.pushHash, lens_insertKey, List.length_append, List.length_singleton]
      rfl
    have hne : (∀ entry ∈ Workload.pushHash wl.srdPath2hashs path g.val, entry.2 ≠ []) ↔
        ∀ entry ∈ wl.srdPath2hashs, entry.2 = [] → entry.1 = path := by
      rw [no_empty_iff hm']
      constructor
      · intro hall entry he hempty
        by_contra hp
        refine hall entry.1 ?_
        rw [hlens, if_neg hp, lens, findKey_of_mem isOrder_ltBytes hm he, hempty]
        rfl
      · intro hall p hzero
        rw [hlens] at hzero
        split_ifs at hzero with hp
        · cases hzero
        · obtain ⟨hs, hfind, hlen⟩ := Option.map_eq_some_iff.mp hzero
          exact hp (hall _ (mem_of_findKey hfind) (List.eq_nil_of_length_eq_zero hlen))
    refine ⟨hm', ?_⟩
    have hsome : newGHash sha256 env ≠ none := by
      rw [hg]
      exact Option.some_ne_none g
    dsimp only
    rw [Drawable, SrdLimit.srdTotal_pushHash hm, hne, Nat.succ_le_iff, or_iff_right hsome]

theorem decrease_drawable {answer : Nat → CrustStatus} {change : Int} {del : DelIndex} {n : Nat}
    (hd : srdDecrease mem answer wl change del = some (n, wl')) (h : Ready wl) :
    Sorted ltBytes wl'.srdPath2hashs ∧
      (Drawable wl'.srdPath2hashs ↔
        keepsSampling sha256 mem wl (.decrease answer change del)) := by
  obtain ⟨hm, hdraw⟩ := h
  simp only [srdDecrease] at hd
  split_ifs at hd with hzero
  · cases hd
    exact ⟨hm, fun _ => .inl hzero, fun _ => hdraw⟩
  · obtain ⟨⟨m', gone⟩, her, hr⟩ := Option.map_eq_some_iff.mp hd
    cases hr
    have hdrop : Dropped (chosenAt (chosenDel wl.srdPath2hashs change del))
        (weigh List.length (chosenDel wl.srdPath2hashs change del)) wl.srdPath2hashs m' :=
      eraseChosen_dropped hm her
    refine ⟨hdrop.sorted, ?_⟩
    have htotal := hdrop.total
    have hne : (∀ entry ∈ m', entry.2 ≠ []) ↔ ∀ entry ∈ wl.srdPath2hashs,
        chosenAt (chosenDel wl.srdPath2hashs change del) entry.1 < entry.2.length := by
      rw [no_empty_iff hdrop.sorted]
      constructor
      · intro hall entry he
        by_contra hle
        refine hall entry.1 ?_
        rw [hdrop.lens, lens, findKey_of_mem isOrder_ltBytes hm he]
        simp only [Option.map_some, Option.some.injEq]
        omega
      · intro hall p hlen
        rw [hdrop.lens] at hlen
        obtain ⟨len, hl, hsub⟩ := Option.map_eq_some_iff.mp hlen
        obtain ⟨hs, hfind, rfl⟩ := Option.map_eq_some_iff.mp hl
        have hlt := hall _ (mem_of_findKey hfind)
        dsimp only at hlt
        omega
    dsimp only [keepsSampling]
    rw [Drawable, hne, or_iff_right hzero]
    refine or_congr_left ?_
    omega

theorem update_drawable {answer : Nat → CrustStatus} {hashs : Bytes}
    (hu : srdUpdateMetadata mem answer wl hashs = some wl') (h : Ready wl) :
    Sorted ltBytes wl'.srdPath2hashs ∧
      (Drawable wl'.srdPath2hashs ↔
        keepsSampling sha256 mem wl (.updateMetadata answer hashs)) := by
  obtain ⟨hm, -⟩ := h
  unfold srdUpdateMetadata at hu
  split at hu
  · cases hu
  rename_i doc hdoc
  cases hu
  have hpop : Popped doc.objectRange wl.srdPath2hashs
      (doc.objectRange.foldl (updatePath answer) ⟨wl.srdPath2hashs, wl.srdInfoJson, 0⟩).m :=
    updatePaths_popped (u := ⟨wl.srdPath2hashs, wl.srdInfoJson, 0⟩) (JsonParse.load_sorted hdoc) hm
  refine ⟨hpop.sorted, ?_⟩
  have htotal := hpop.total
  dsimp only [keepsSampling]
  generalize (doc.objectRange.foldl (updatePath answer) ⟨wl.srdPath2hashs, wl.srdInfoJson, 0⟩).m =
    m' at hpop htotal ⊢
  have hne : (∀ entry ∈ m', entry.2 ≠ []) ↔ (∀ entry ∈ wl.srdPath2hashs, entry.2 ≠ []) ∧
      ∀ e ∈ doc.objectRange,
        realDeletedNum wl.srdPath2hashs e.1 e.2 < (hashsOf wl.srdPath2hashs e.1).length := by
    rw [no_empty_iff hpop.sorted, no_empty_iff hm]
    constructor
    · intro hall
      have hnamed : ∀ e ∈ doc.objectRange,
          realDeletedNum wl.srdPath2hashs e.1 e.2 < (hashsOf wl.srdPath2hashs e.1).length := by
        intro e he
        by_contra hle
        refine hall e.1 ?_
        rw [hpop.named e he, Nat.sub_eq_zero_of_le (Nat.le_of_not_lt hle)]
      refine ⟨fun p hzero => ?_, hnamed⟩
      by_cases hp : ∃ e ∈ doc.objectRange, e.1 = p
      · obtain ⟨e, he, rfl⟩ := hp
        have hlt := hnamed e he
        rw [← lens_getD, hzero] at hlt
        exact Nat.not_lt_zero _ hlt
      · push Not at hp
        exact hall p (hpop.other p hp ▸ hzero)
    · rintro ⟨hall, hnamed⟩ p hzero
      by_cases hp : ∃ e ∈ doc.objectRange, e.1 = p
      · obtain ⟨e, he, rfl⟩ := hp
        have hlt := hnamed e he
        rw [hpop.named e he] at hzero
        have := Option.some.inj hzero
        omega
      · push Not at hp
        rw [hpop.other p hp] at hzero
        exact hall p hzero
  rw [Drawable, hne]
  constructor
  · rintro hor doc' hdoc'
    cases hdoc.symm.trans hdoc'
    exact hor.imp_left fun hle => by omega
  · intro hall
    exact (hall doc hdoc).imp_left fun hle => by omega

theorem step_drawable {a : Act} (hstep : step sha256 mem wl a = some wl') (h : Ready wl) :
    Sorted ltBytes wl'.srdPath2hashs ∧
      (Drawable wl'.srdPath2hashs ↔ keepsSampling sha256 mem wl a) := by
  cases a with
  | restore malloc gHashs =>
    cases hstep
    obtain ⟨hsorted, hne⟩ := restoreSrd_not_empty wl malloc gHashs
    exact ⟨hsorted, fun _ => trivial, fun _ => .inr hne⟩
  | increase env path =>
    cases hstep
    exact increase_drawable h
  | decrease answer change del =>
    obtain ⟨⟨n, wl₁⟩, hd, rfl⟩ := Option.map_eq_some_iff.mp hstep
    exact decrease_drawable hd h
  | updateMetadata answer hashs => exact update_drawable hstep h

end

/-- From an empty map on every draw is safe in every state when each step leaves a hash under
every path or few hashes in all; with no more paths than a 32-bit number can name these are all
the runs in which every draw is safe. -/
theorem sampling_safe_iff {sha256 : Bytes → Hash} {mem : Mem} {start wl : Workload τ}
    {acts : List Act} (hstart : start.srdPath2hashs = [])
    (hrun : Runs.run (step sha256 mem) start acts = some wl) :
    (Runs.Allowed (step sha256 mem) (keepsSampling sha256 mem) start acts →
      Runs.Always (step sha256 mem) SamplingSafe start acts) ∧
    (Runs.Always (step sha256 mem) (fun wl => wl.srdPath2hashs.length ≤ 2 ^ 32) start acts →
      Runs.Always (step sha256 mem) SamplingSafe start acts →
      Runs.Allowed (step sha256 mem) (keepsSampling sha256 mem) start acts) := by
  have hready : Ready start := by
    rw [Ready, hstart]
    exact ⟨sorted_nil _, .inr nofun⟩
  have hiff : Runs.Always (step sha256 mem) (fun wl => Drawable wl.srdPath2hashs) start acts ↔
      Runs.Allowed (step sha256 mem) (keepsSampling sha256 mem) start acts := by
    have hdrawable : ∀ wl : Workload τ, Ready wl → Drawable wl.srdPath2hashs := fun _ h => h.2
    refine Runs.always_iff_allowed hdrawable (fun wl a wl' hs h => ?_) hrun hready
    obtain ⟨hsorted, hdraw⟩ := step_drawable hs h
    exact ⟨fun hok => ⟨hsorted, hdraw.mpr hok⟩, hdraw.mp⟩
  constructor
  · intro hkept
    exact (hiff.mpr hkept).mono fun _ => samplingSafe_of_drawable
  · intro hpaths hsafe
    refine hiff.mp fun before after s hsplit hreach => ?_
    exact (samplingSafe_iff (hpaths before after s hsplit hreach)).mp
      (hsafe before after s hsplit hreach)

/-! ### A path that loses a hash -/

def storedHashs (num : Nat) : JSON :=
  .object [(str "/a", .array (List.replicate num (.hash zeroHash))),
    (str "/b", .array (List.replicate 65 (.hash zeroHash)))]

def served : Bytes → Nat → Bool := fun _ _ => true

def popOne : Bytes := str "\x7b\"/a\":1\x7d"

def restoreAndPop (num : Nat) : List Act :=
  [.restore served (storedHashs num), .updateMetadata (fun _ => .success) popOne]

theorem sampling_safe_two :
    Runs.Always (step noHash noMem) SamplingSafe emptyWorkload (restoreAndPop 2) := by
  have hrun : (Runs.run (step noHash noMem) emptyWorkload (restoreAndPop 2)).isSome = true := by
    decide +kernel
  obtain ⟨wl, hwl⟩ := Option.isSome_iff_exists.mp hrun
  refine (sampling_safe_iff rfl hwl).1 ⟨trivial, fun doc hdoc => .inr ?_, ?_⟩
  · have hkeeps : (match JsonParse.load noMem popOne with
      | .ok doc => doc.objectRange.all fun e =>
          decide (realDeletedNum (emptyWorkload.restoreSrd served (storedHashs 2)).2.srdPath2hashs e.1 e.2 <
            (hashsOf (emptyWorkload.restoreSrd served (storedHashs 2)).2.srdPath2hashs e.1).length)
      | .error _ => false) = true := by decide +kernel
    rw [hdoc] at hkeeps
    exact ⟨(restoreSrd_not_empty _ _ _).2,
      fun e he => of_decide_eq_true (List.all_eq_true.mp hkeeps e he)⟩
  · split
    · trivial
    · trivial

/-- The list of `/a` loses its only hash; it is drawn when the random number is zero. -/
theorem emptied_path_is_drawn :
    ∃ wl, Runs.run (step noHash noMem) emptyWorkload (restoreAndPop 1) = some wl ∧
      validateSrdIdxs (fun _ => 0) wl.srdPath2hashs = none ∧ ¬ SamplingSafe wl := by
  have hrun : ((Runs.run (step noHash noMem) emptyWorkload (restoreAndPop 1)).map fun wl =>
      decide (validateSrdIdxs (fun _ => 0) wl.srdPath2hashs = none)) = some true := by
    decide +kernel
  obtain ⟨wl, hwl, h⟩ := Option.map_eq_some_iff.mp hrun
  have hnone := of_decide_eq_true h
  refine ⟨wl, hwl, hnone, fun hsafe => ?_⟩
  obtain ⟨idxs, hidxs, -⟩ := hsafe.srd fun _ => 0
  rw [hnone] at hidxs
  cases hidxs

end CrustSworker.SrdSampling

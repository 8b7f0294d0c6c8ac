import CrustSworker.Runs
import CrustSworker.Srd

/-!
# Published counts and the hash lists

`srd_info_json` is what the app learns about the srd of each path. Every operation that changes
the hash lists changes the counts by a rule of its own; only `srd_update_metadata` makes the
change depend on the answer of the host, so a file the host does not delete leaves a count
that is too large for good.
-/

namespace CrustSworker.SrdInfo

open OrderedMap Srd

variable {τ : Type}

def Mirrored (wl : Workload τ) : Prop :=
  ∀ path, assigned wl.srdInfoJson path = (hashsOf wl.srdPath2hashs path).length

/-! ### Single updates -/

theorem assigned_assign (info : JSON) (q p : Bytes) (n : Int) :
    assigned (assign info q n) p = if p = q then n else assigned info p := by
  unfold assigned assign
  split_ifs with h
  · subst h
    rw [JSON.get_put_self, JSON.get_put_self]
    rfl
  · rw [JSON.get_put_ne _ h]

theorem assigned_setSrdInfo (info : JSON) (q p : Bytes) (c : Int) :
    assigned (setSrdInfo info q c) p =
      if p = q then max 0 (assigned info p + c) else assigned info p := by
  simp only [setSrdInfo, assigned_assign, if_true]
  by_cases h : p = q
  · subst h
    rw [if_pos rfl]
    split_ifs with hneg
    · rw [assigned_assign, if_pos rfl]
      omega
    · rw [assigned_assign, if_pos rfl]
      omega
  · rw [if_neg h]
    split_ifs
    · simp [assigned_assign, h]
    · simp [assigned_assign, h]

theorem hashsOf_insertKey (m : PathMap) (q p : Bytes) (v : List Bytes) :
    hashsOf (insertKey ltBytes q v m) p = if p = q then v else hashsOf m p := by
  unfold hashsOf
  split_ifs with h
  · subst h
    rw [findKey_insertKey_self]
    rfl
  · rw [findKey_insertKey_ne ltBytes h]

theorem hashsOf_pushHash (m : PathMap) (q p g : Bytes) :
    hashsOf (Workload.pushHash m q g) p = if p = q then hashsOf m p ++ [g] else hashsOf m p := by
  rw [Workload.pushHash, hashsOf_insertKey]
  split_ifs with h
  · subst h
    rfl
  · rfl

/-! ### `srd_increase` -/

theorem mirrored_increase {sha256 : Bytes → Hash} {env : IncreaseEnv} {wl : Workload τ}
    {path : Bytes} (h : Mirrored wl) : Mirrored (srdIncrease sha256 env wl path) := by
  unfold srdIncrease
  split
  · exact h
  · intro p
    have hp := h p
    simp only [assigned_setSrdInfo, hashsOf_pushHash]
    split_ifs
    · rw [List.length_append, List.length_singleton]
      omega
    · exact hp

/-! ### `srd_decrease` -/

structure Moved (m gone m' gone' : PathMap) : Prop where
  total : ∀ p, (hashsOf m' p).length + (hashsOf gone' p).length =
    (hashsOf m p).length + (hashsOf gone p).length
  sorted : Sorted ltBytes gone → Sorted ltBytes gone'

theorem Moved.refl (m gone : PathMap) : Moved m gone m gone := ⟨fun _ => rfl, id⟩

theorem Moved.trans {m gone m₁ gone₁ m₂ gone₂ : PathMap} (h₁ : Moved m gone m₁ gone₁)
    (h₂ : Moved m₁ gone₁ m₂ gone₂) : Moved m gone m₂ gone₂ :=
  ⟨fun p => (h₂.total p).trans (h₁.total p), fun hs => h₂.sorted (h₁.sorted hs)⟩

theorem moved_eraseIdx {m gone : PathMap} {path : Bytes} {i : Nat}
    (hi : i < (hashsOf m path).length) (g : Bytes) :
    Moved m gone (insertKey ltBytes path ((hashsOf m path).eraseIdx i) m)
      (Workload.pushHash gone path g) := by
  refine ⟨fun p => ?_, fun hs => hs.insertKey isOrder_ltBytes _ _⟩
  rw [hashsOf_insertKey, hashsOf_pushHash]
  split_ifs with h
  · subst h
    rw [List.length_eraseIdx_of_lt hi, List.length_append, List.length_singleton]
    omega
  · rfl

theorem erasePath_moved {mem : Mem} {path : Bytes} {is : List Nat} {m gone m' gone' : PathMap}
    (h : erasePath mem path is m gone = some (m', gone')) : Moved m gone m' gone' := by
  induction is generalizing m gone with
  | nil =>
    cases h
    exact Moved.refl _ _
  | cons i is ih =>
    simp only [erasePath] at h
    split at h
    · cases h
    · rename_i g hg
      obtain ⟨hi, -⟩ := List.getElem?_eq_some_iff.mp hg
      exact (moved_eraseIdx hi _).trans (ih h)

theorem eraseChosen_moved {mem : Mem} {del : DelIndex} {m gone m' gone' : PathMap}
    (h : eraseChosen mem del m gone = some (m', gone')) : Moved m gone m' gone' := by
  induction del generalizing m gone with
  | nil =>
    cases h
    exact Moved.refl _ _
  | cons entry del ih =>
    obtain ⟨path, idxs⟩ := entry
    simp only [eraseChosen] at h
    split at h
    · cases h
    · rename_i r hr
      exact (erasePath_moved hr).trans (ih h)

theorem dropCounts_absent {gone : PathMap} {p : Bytes} (h : ∀ q ∈ gone, q.1 ≠ p) (info : JSON) :
    assigned (dropCounts info gone) p = assigned info p := by
  induction gone generalizing info with
  | nil => rfl
  | cons q gone ih =>
    have hne : p ≠ q.1 := Ne.symm (h q List.mem_cons_self)
    rw [dropCounts, List.foldl_cons, ← dropCounts,
      ih fun r hr => h r (List.mem_cons_of_mem _ hr), assigned_setSrdInfo, if_neg hne]

theorem assigned_dropCounts {gone : PathMap} (hs : Sorted ltBytes gone) {info : JSON} {p : Bytes}
    (hp : 0 ≤ assigned info p) :
    assigned (dropCounts info gone) p = max 0 (assigned info p - (hashsOf gone p).length) := by
  induction gone generalizing info with
  | nil => simp [dropCounts, hashsOf, findKey, hp]
  | cons q gone ih =>
    obtain ⟨k, hs'⟩ := q
    rw [dropCounts, List.foldl_cons, ← dropCounts]
    by_cases hk : p = k
    · subst hk
      rw [dropCounts_absent (hs.head_ne isOrder_ltBytes), assigned_setSrdInfo, if_pos rfl]
      simp [hashsOf, findKey, Int.sub_eq_add_neg]
    · have hnext : assigned (setSrdInfo info k (-(hs'.length : Int))) p = assigned info p := by
        rw [assigned_setSrdInfo, if_neg hk]
      rw [ih (List.pairwise_cons.mp hs).2 (by rw [hnext]; exact hp), hnext]
      simp [hashsOf, findKey, hk]

theorem mirrored_decrease {mem : Mem} {answer : Nat → CrustStatus} {wl wl' : Workload τ}
    {change : Int} {del : DelIndex} {n : Nat}
    (hd : srdDecrease mem answer wl change del = some (n, wl')) (h : Mirrored wl) :
    Mirrored wl' := by
  simp only [srdDecrease] at hd
  split_ifs at hd
  · cases hd
    exact h
  · obtain ⟨⟨m', gone⟩, her, hr⟩ := Option.map_eq_some_iff.mp hd
    cases hr
    have hmoved := eraseChosen_moved her
    intro p
    have hp := h p
    have htotal := hmoved.total p
    rw [assigned_dropCounts (hmoved.sorted (sorted_nil _)) (by omega)]
    simp only [hashsOf, findKey, Option.getD_none, List.length_nil, Nat.add_zero] at htotal hp ⊢
    omega

/-! ### `srd_update_metadata` -/

def drift (u : Update) (p : Bytes) : Int := assigned u.info p - (hashsOf u.m p).length

/-- The counts are never too small, and each deletion that fails makes one of them larger. -/
structure Drifts (answer : Nat → CrustStatus) (u u' : Update) : Prop where
  asked : u.asked ≤ u'.asked
  mono : ∀ p, drift u p ≤ drift u' p
  same : (∀ k, u.asked ≤ k → k < u'.asked → answer k = .success) → ∀ p, drift u' p = drift u p
  grows : ∀ k, u.asked ≤ k → k < u'.asked → answer k ≠ .success → ∃ p, drift u p < drift u' p

section
variable {answer : Nat → CrustStatus} {u u₁ u₂ : Update}

theorem Drifts.of_same (hasked : u₁.asked = u.asked) (h : ∀ p, drift u₁ p = drift u p) :
    Drifts answer u u₁ where
  asked := hasked.ge
  mono p := (h p).ge
  same _ := h
  grows k hk hk' := by omega

theorem Drifts.trans (h₁ : Drifts answer u u₁) (h₂ : Drifts answer u₁ u₂) :
    Drifts answer u u₂ where
  asked := h₁.asked.trans h₂.asked
  mono p := (h₁.mono p).trans (h₂.mono p)
  same hk p := by
    have hle₁ := h₁.asked
    have hle₂ := h₂.asked
    rw [h₂.same (fun k hge hlt => hk k (by omega) hlt) p]
    exact h₁.same (fun k hge hlt => hk k hge (by omega)) p
  grows k hge hlt hne := by
    by_cases hmid : k < u₁.asked
    · obtain ⟨p, hp⟩ := h₁.grows k hge hmid hne
      exact ⟨p, lt_of_lt_of_le hp (h₂.mono p)⟩
    · obtain ⟨p, hp⟩ := h₂.grows k (by omega) hlt hne
      exact ⟨p, lt_of_le_of_lt (h₁.mono p) hp⟩

theorem drift_popHash {path : Bytes} (hpos : 0 < (hashsOf u.m path).length)
    (hge : 0 ≤ drift u path) (p : Bytes) :
    drift (popHash answer path u) p =
      drift u p + if p = path ∧ answer u.asked ≠ .success then 1 else 0 := by
  unfold drift at hge ⊢
  simp only [popHash, hashsOf_insertKey]
  by_cases hp : p = path
  · subst hp
    rw [if_pos rfl, List.length_dropLast]
    by_cases hans : answer u.asked = .success
    · rw [if_pos hans, assigned_setSrdInfo, if_pos rfl, if_neg (by simp [hans])]
      omega
    · rw [if_neg hans, if_pos ⟨rfl, hans⟩]
      omega
  · have hnot : ¬ (p = path ∧ answer u.asked ≠ .success) := fun h => hp h.1
    rw [if_neg hp, if_neg hnot]
    by_cases hans : answer u.asked = .success
    · rw [if_pos hans, assigned_setSrdInfo, if_neg hp]
      omega
    · rw [if_neg hans]
      omega

theorem popHash_drifts {path : Bytes} (hpos : 0 < (hashsOf u.m path).length)
    (hge : 0 ≤ drift u path) : Drifts answer u (popHash answer path u) where
  asked := Nat.le_succ _
  mono p := by
    rw [drift_popHash hpos hge]
    split_ifs
    · omega
    · omega
  same hk p := by
    have hans := hk u.asked le_rfl (Nat.lt_succ_self _)
    rw [drift_popHash hpos hge, if_neg (by simp [hans])]
    omega
  grows k hk hk' hne := by
    obtain rfl : k = u.asked := by
      simp only [popHash] at hk'
      omega
    refine ⟨path, ?_⟩
    rw [drift_popHash hpos hge, if_pos ⟨rfl, hne⟩]
    omega

theorem popHashs_drifts {path : Bytes} {n : Nat} (hn : n ≤ (hashsOf u.m path).length)
    (hge : ∀ p, 0 ≤ drift u p) : Drifts answer u (popHashs answer path n u) := by
  induction n generalizing u with
  | zero => exact Drifts.of_same rfl fun _ => rfl
  | succ n ih =>
    have hfirst : Drifts answer u (popHash answer path u) := popHash_drifts (by omega) (hge path)
    refine hfirst.trans (ih ?_ fun p => (hge p).trans (hfirst.mono p))
    simp only [popHash, hashsOf_insertKey, if_true, List.length_dropLast]
    omega

theorem updatePath_drifts (hge : ∀ p, 0 ≤ drift u p) (entry : Bytes × JSON) :
    Drifts answer u (updatePath answer u entry) := by
  have hcreate : ∀ p, hashsOf (insertKey ltBytes entry.1 (hashsOf u.m entry.1) u.m) p =
      hashsOf u.m p := by
    intro p
    rw [hashsOf_insertKey]
    split_ifs with h
    · rw [h]
    · rfl
  have hfirst : Drifts answer u
      { u with m := insertKey ltBytes entry.1 (hashsOf u.m entry.1) u.m } := by
    refine Drifts.of_same rfl fun p => ?_
    simp only [drift, hcreate]
  refine hfirst.trans (popHashs_drifts ?_ fun p => (hge p).trans (hfirst.mono p))
  rw [hcreate]
  exact min_le_right _ _

theorem updatePaths_drifts (fields : List (Bytes × JSON)) (hge : ∀ p, 0 ≤ drift u p) :
    Drifts answer u (fields.foldl (updatePath answer) u) := by
  induction fields generalizing u with
  | nil => exact Drifts.of_same rfl fun _ => rfl
  | cons entry fields ih =>
    have hfirst : Drifts answer u (updatePath answer u entry) := updatePath_drifts hge entry
    exact hfirst.trans (ih fun p => (hge p).trans (hfirst.mono p))

end

/-! ### `restore_srd` -/

theorem restoreHashes_sorted {malloc : Nat → Bool} {path : Bytes} {i : Nat} {hs : List JSON}
    {m m' : PathMap} (h : Workload.restoreHashes malloc path i hs m = some m') (hm : Sorted ltBytes m) :
    Sorted ltBytes m' := by
  induction hs generalizing i m with
  | nil =>
    cases h
    exact hm
  | cons j hs ih =>
    simp only [Workload.restoreHashes] at h
    split at h
    · cases h
    · exact ih h (hm.insertKey isOrder_ltBytes _ _)

theorem restorePaths_sorted {malloc : Bytes → Nat → Bool} {ps : List (Bytes × JSON)}
    {m m' : PathMap} (h : Workload.restorePaths malloc ps m = some m') (hm : Sorted ltBytes m) :
    Sorted ltBytes m' := by
  induction ps generalizing m with
  | nil =>
    cases h
    exact hm
  | cons entry ps ih =>
    simp only [Workload.restorePaths] at h
    split at h
    · cases h
    · rename_i m₁ hm₁
      exact ih h (restoreHashes_sorted hm₁ hm)

theorem assignSrdInfo_cons (info : JSON) (q : Bytes × List Bytes) (m : PathMap) :
    Workload.assignSrdInfo info (q :: m) =
      Workload.assignSrdInfo (assign info q.1 q.2.length) m := rfl

theorem assignSrdInfo_absent {m : PathMap} {p : Bytes} (h : ∀ q ∈ m, q.1 ≠ p) (info : JSON) :
    assigned (Workload.assignSrdInfo info m) p = assigned info p := by
  induction m generalizing info with
  | nil => rfl
  | cons q m ih =>
    have hne : p ≠ q.1 := Ne.symm (h q List.mem_cons_self)
    rw [assignSrdInfo_cons, ih fun r hr => h r (List.mem_cons_of_mem _ hr), assigned_assign,
      if_neg hne]

theorem assigned_assignSrdInfo {m : PathMap} (hm : Sorted ltBytes m) {info : JSON} {p : Bytes}
    (h0 : assigned info p = 0) :
    assigned (Workload.assignSrdInfo info m) p = (hashsOf m p).length := by
  induction m generalizing info with
  | nil => simpa [Workload.assignSrdInfo, hashsOf, findKey] using h0
  | cons q m ih =>
    obtain ⟨k, hs⟩ := q
    rw [assignSrdInfo_cons]
    by_cases hk : p = k
    · subst hk
      rw [assignSrdInfo_absent (hm.head_ne isOrder_ltBytes), assigned_assign, if_pos rfl]
      simp [hashsOf, findKey]
    · rw [ih (List.pairwise_cons.mp hm).2 (by rw [assigned_assign, if_neg hk, h0])]
      simp [hashsOf, findKey, hk]

theorem mirrored_restore {wl : Workload τ} (h : wl.srdInfoJson = .null)
    (malloc : Bytes → Nat → Bool) (gHashs : JSON) : Mirrored (wl.restoreSrd malloc gHashs).2 := by
  have h0 : ∀ p, assigned wl.srdInfoJson p = 0 := by
    intro p
    rw [h]
    rfl
  unfold Workload.restoreSrd
  split
  · exact h0
  · rename_i m hm
    intro p
    exact assigned_assignSrdInfo (restorePaths_sorted hm (sorted_nil _)) (h0 p)

/-! ### Whole runs -/

inductive Act where
  | restore (malloc : Bytes → Nat → Bool) (gHashs : JSON)
  | increase (env : IncreaseEnv) (path : Bytes)
  | decrease (answer : Nat → CrustStatus) (change : Int) (del : DelIndex)
  | updateMetadata (answer : Nat → CrustStatus) (hashs : Bytes)

section
variable (sha256 : Bytes → Hash) (mem : Mem)

def step (wl : Workload τ) : Act → Option (Workload τ)
  | .restore malloc gHashs => some (wl.restoreSrd malloc gHashs).2
  | .increase env path => some (srdIncrease sha256 env wl path)
  | .decrease answer change del => (srdDecrease mem answer wl change del).map Prod.snd
  | .updateMetadata answer hashs => srdUpdateMetadata mem answer wl hashs

/-- `restore_srd` runs at start-up, when no count has been set yet. -/
def atStartUp (wl : Workload τ) : Act → Prop
  | .restore _ _ => wl.srdInfoJson = .null
  | _ => True

def deletesAll (wl : Workload τ) : Act → Prop
  | .updateMetadata answer hashs =>
    ∀ doc, JsonParse.load mem hashs = .ok doc →
      ∀ k < (doc.objectRange.foldl (updatePath answer) ⟨wl.srdPath2hashs, wl.srdInfoJson, 0⟩).asked,
        answer k = .success
  | _ => True

end

section
variable {sha256 : Bytes → Hash} {mem : Mem} {wl wl' : Workload τ}

theorem mirrored_update_iff {answer : Nat → CrustStatus} {hashs : Bytes}
    (hu : srdUpdateMetadata mem answer wl hashs = some wl') (h : Mirrored wl) :
    Mirrored wl' ↔ deletesAll mem wl (.updateMetadata answer hashs) := by
  unfold srdUpdateMetadata at hu
  split at hu
  · cases hu
  rename_i doc hdoc
  cases hu
  have h0 : ∀ p, drift ⟨wl.srdPath2hashs, wl.srdInfoJson, 0⟩ p = 0 := by
    intro p
    have hp := h p
    simp only [drift]
    omega
  have hdrifts : Drifts answer ⟨wl.srdPath2hashs, wl.srdInfoJson, 0⟩
      (doc.objectRange.foldl (updatePath answer) ⟨wl.srdPath2hashs, wl.srdInfoJson, 0⟩) :=
    updatePaths_drifts _ fun p => (h0 p).ge
  simp only [deletesAll, hdoc, Except.ok.injEq]
  constructor
  · rintro hm _ rfl k hk
    by_contra hne
    obtain ⟨p, hp⟩ := hdrifts.grows k (Nat.zero_le k) hk hne
    have hmp := hm p
    rw [h0] at hp
    dsimp only [drift] at hp hmp
    omega
  · intro hall p
    have hp := hdrifts.same (fun k _ hk => hall doc rfl k hk) p
    rw [h0] at hp
    dsimp only [drift] at hp ⊢
    omega

theorem step_mirrored {a : Act} (hstep : step sha256 mem wl a = some wl') (hdom : atStartUp wl a)
    (h : Mirrored wl) :
    (deletesAll mem wl a → Mirrored wl') ∧ (Mirrored wl' → deletesAll mem wl a) := by
  cases a with
  | restore malloc gHashs =>
    cases hstep
    exact ⟨fun _ => mirrored_restore hdom malloc gHashs, fun _ => trivial⟩
  | increase env path =>
    cases hstep
    exact ⟨fun _ => mirrored_increase h, fun _ => trivial⟩
  | decrease answer change del =>
    obtain ⟨⟨n, wl₁⟩, hd, rfl⟩ := Option.map_eq_some_iff.mp hstep
    exact ⟨fun _ => mirrored_decrease hd h, fun _ => trivial⟩
  | updateMetadata answer hashs =>
    have hiff := mirrored_update_iff hstep h
    exact ⟨hiff.mpr, hiff.mp⟩

end

theorem mirrored_init (keys : KeyPair) (pre : PubKey) :
    Mirrored (Workload.init keys pre : Workload τ) := fun _ => rfl

/-- From start-up on the published counts are the lengths of the hash lists after every
operation exactly when the host does all the deletions of `srd_update_metadata`. -/
theorem always_mirrored_iff {sha256 : Bytes → Hash} {mem : Mem} {keys : KeyPair} {pre : PubKey}
    {acts : List Act} {start wl : Workload τ} (hinit : start = Workload.init keys pre)
    (hrun : Runs.run (step sha256 mem) start acts = some wl)
    (hstart : Runs.Allowed (step sha256 mem) atStartUp start acts) :
    Runs.Always (step sha256 mem) Mirrored start acts ↔
      Runs.Allowed (step sha256 mem) (deletesAll mem) start acts := by
  have h0 : Mirrored start := by
    rw [hinit]
    exact mirrored_init keys pre
  exact Runs.always_iff_allowed_of (fun _ h => h)
    (fun _ _ _ hstep hdom h => step_mirrored hstep hdom h) hrun hstart h0

/-! ### One G hash -/

def noHash : Bytes → Hash := fun _ => zeroHash

def noMem : Mem := ⟨fun _ _ => 0⟩

def emptyWorkload : Workload Nat :=
  Workload.init ⟨⟨List.replicate 64 0, length_zeros64⟩, zeroHash⟩ ⟨List.replicate 64 0, length_zeros64⟩

def restoreAndDelete (answer : Nat → CrustStatus) : List Act :=
  [.restore (fun _ _ => true) (.object [(str "/d", .array [.hash zeroHash])]),
    .updateMetadata answer (str "\x7b\"/d\":1\x7d")]

theorem always_mirrored_deleted :
    Runs.Always (step noHash noMem) Mirrored emptyWorkload
      (restoreAndDelete fun _ => .success) := by
  have hrun : (Runs.run (step noHash noMem) emptyWorkload
      (restoreAndDelete fun _ => .success)).isSome = true := by decide +kernel
  obtain ⟨wl, hwl⟩ := Option.isSome_iff_exists.mp hrun
  refine (always_mirrored_iff rfl hwl ?_).mpr ?_
  · refine ⟨rfl, trivial, ?_⟩
    split
    · trivial
    · trivial
  · refine ⟨trivial, fun _ _ _ _ => rfl, ?_⟩
    split
    · trivial
    · trivial

theorem failed_deletion_stays_counted :
    ∃ wl, Runs.run (step noHash noMem) emptyWorkload
        (restoreAndDelete fun _ => .unexpectedError) = some wl ∧
      assigned wl.srdInfoJson (str "/d") = 1 ∧ (hashsOf wl.srdPath2hashs (str "/d")).length = 0 ∧
      ¬ Mirrored wl := by
  have hrun : ((Runs.run (step noHash noMem) emptyWorkload
      (restoreAndDelete fun _ => .unexpectedError)).map fun wl =>
        (assigned wl.srdInfoJson (str "/d"), (hashsOf wl.srdPath2hashs (str "/d")).length)) =
      some (1, 0) := by decide +kernel
  obtain ⟨wl, hwl, h⟩ := Option.map_eq_some_iff.mp hrun
  obtain ⟨hinfo, hlen⟩ := Prod.mk.inj h
  refine ⟨wl, hwl, hinfo, hlen, fun hm => ?_⟩
  have hp := hm (str "/d")
  rw [hinfo, hlen] at hp
  exact absurd hp (by decide)

end CrustSworker.SrdInfo

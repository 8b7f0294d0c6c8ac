import CrustSworker.FileStats

/-!
# Sizes of all kinds in the file statistics

`set_wl_spec` takes the 64-bit size of a file in a parameter of 32 bits and reads from the sign of
that parameter whether a file comes or goes. What it adds and what it takes away again are two
functions of the size, and the statistics are exact where these two are what they stand for.
-/

namespace CrustSworker.SpecSizes

open FileStats

variable {τ : Type}

/-! ### What is exact -/

structure AddsExactly (wl : Workload τ) (c : UInt8) (n : Int) : Prop where
  num : ∀ d ∈ counted, specNum (wl.setWlSpec c n) d = specNum wl d + if c = d then 1 else 0
  size : ∀ d ∈ counted, specSize (wl.setWlSpec c n) d = specSize wl d + if c = d then n else 0

structure MovesExactly (wl : Workload τ) (a b : UInt8) (n : Int) : Prop where
  num : ∀ d ∈ counted, specNum (wl.moveWlSpec a b n) d =
    specNum wl d + (if a = d then 1 else 0) - if b = d then 1 else 0
  size : ∀ d ∈ counted, specSize (wl.moveWlSpec a b n) d =
    specSize wl d + (if a = d then n else 0) - if b = d then n else 0

def moveAndDelete (wl : Workload τ) (n : Int) (c : UInt8) : List UInt8 → Workload τ
  | [] => wl.setWlSpec c (-n)
  | d :: ds => moveAndDelete (wl.moveWlSpec d c n) n d ds

def lifetime (wl : Workload τ) (n : Int) (c : UInt8) (ds : List UInt8) : Workload τ :=
  moveAndDelete (wl.setWlSpec c n) n c ds

structure SameSpec (wl wl' : Workload τ) : Prop where
  num : ∀ d ∈ counted, specNum wl' d = specNum wl d
  size : ∀ d ∈ counted, specSize wl' d = specSize wl d

/-! ### Adding and moving -/

theorem exact_iff (n : Int) : (specSign (toInt32 n) = 1 ∧ toInt32 n = n) ↔ InRange n := by
  refine ⟨fun ⟨hsign, hval⟩ => ?_, fun hn => ⟨specSign_of_inRange hn, toInt32_of_inRange hn⟩⟩
  have hpos : toInt32 n > 0 := by
    by_contra hneg
    rw [specSign, if_neg hneg] at hsign
    exact absurd hsign (by decide)
  have hlt : toInt32 n < 2 ^ 31 := by
    rw [toInt32, Int.bmod_def]
    split_ifs
    all_goals omega
  rw [hval] at hpos hlt
  exact ⟨hpos, hlt⟩

section
variable {wl : Workload τ} {a b c : UInt8} {n : Int}

theorem addsExactly_iff (hc : c ∈ counted) : AddsExactly wl c n ↔ InRange n := by
  constructor
  · intro h
    have hnum := h.num c hc
    have hsize := h.size c hc
    rw [specNum_set wl hc, if_pos rfl, if_pos rfl] at hnum
    rw [specSize_set wl hc, if_pos rfl, if_pos rfl] at hsize
    exact (exact_iff n).mp ⟨Int.add_left_cancel hnum, Int.add_left_cancel hsize⟩
  · exact fun hn => ⟨fun d hd => specNum_add wl hd c hn, fun d hd => specSize_add wl hd c hn⟩

theorem movesExactly_iff (ha : a ∈ counted) (hab : a ≠ b) : MovesExactly wl a b n ↔ InRange n := by
  constructor
  · intro h
    have hnum := h.num a ha
    have hsize := h.size a ha
    rw [specNum_shift wl ha, if_pos rfl, if_pos rfl, if_neg hab.symm, if_neg hab.symm] at hnum
    rw [specSize_shift wl ha, if_pos rfl, if_pos rfl, if_neg hab.symm, if_neg hab.symm] at hsize
    exact (exact_iff n).mp ⟨by omega, by omega⟩
  · exact fun hn => ⟨fun d hd => specNum_move wl hd a b hn, fun d hd => specSize_move wl hd a b hn⟩

end

/-! ### Deleting -/

def numLeft (n : Int) : Int := specSign (toInt32 n) + specSign (toInt32 (-n))

def sizeLeft (n : Int) : Int := toInt32 n + toInt32 (-n)

theorem nothing_left_iff (n : Int) : (numLeft n = 0 ∧ sizeLeft n = 0) ↔ n % 2 ^ 31 ≠ 0 := by
  unfold numLeft sizeLeft specSign toInt32
  rw [Int.bmod_def, Int.bmod_def]
  split_ifs
  all_goals omega

section
variable {c d : UInt8} {n : Int}

theorem specNum_moveAndDelete (hd : d ∈ counted) (wl : Workload τ) (c : UInt8) (ds : List UInt8) :
    specNum (moveAndDelete wl n c ds) d = specNum wl d -
      (if c = d then specSign (toInt32 n) else 0) +
        if (c :: ds).getLast (List.cons_ne_nil c ds) = d then numLeft n else 0 := by
  induction ds generalizing wl c with
  | nil =>
    rw [moveAndDelete, specNum_set wl hd, List.getLast_singleton, numLeft]
    split_ifs
    all_goals omega
  | cons b ds ih =>
    rw [moveAndDelete, ih, specNum_shift wl hd, List.getLast_cons (List.cons_ne_nil b ds)]
    omega

theorem specSize_moveAndDelete (hd : d ∈ counted) (wl : Workload τ) (c : UInt8) (ds : List UInt8) :
    specSize (moveAndDelete wl n c ds) d = specSize wl d - (if c = d then toInt32 n else 0) +
      if (c :: ds).getLast (List.cons_ne_nil c ds) = d then sizeLeft n else 0 := by
  induction ds generalizing wl c with
  | nil =>
    rw [moveAndDelete, specSize_set wl hd, List.getLast_singleton, sizeLeft]
    split_ifs
    all_goals omega
  | cons b ds ih =>
    rw [moveAndDelete, ih, specSize_shift wl hd, List.getLast_cons (List.cons_ne_nil b ds)]
    omega

theorem sameSpec_lifetime_iff {wl : Workload τ} {ds : List UInt8} (hc : c ∈ counted)
    (hds : ∀ d ∈ ds, d ∈ counted) : SameSpec wl (lifetime wl n c ds) ↔ n % 2 ^ 31 ≠ 0 := by
  have hnum : ∀ d ∈ counted, specNum (lifetime wl n c ds) d = specNum wl d +
      if (c :: ds).getLast (List.cons_ne_nil c ds) = d then numLeft n else 0 := by
    intro d hd
    rw [lifetime, specNum_moveAndDelete hd, specNum_set wl hd]
    omega
  have hsize : ∀ d ∈ counted, specSize (lifetime wl n c ds) d = specSize wl d +
      if (c :: ds).getLast (List.cons_ne_nil c ds) = d then sizeLeft n else 0 := by
    intro d hd
    rw [lifetime, specSize_moveAndDelete hd, specSize_set wl hd]
    omega
  have hlast : (c :: ds).getLast (List.cons_ne_nil c ds) ∈ counted := by
    rcases List.mem_cons.mp (List.getLast_mem (List.cons_ne_nil c ds)) with heq | hmem
    · rwa [heq]
    · exact hds _ hmem
  rw [← nothing_left_iff]
  constructor
  · intro h
    have hn := h.num _ hlast
    have hs := h.size _ hlast
    rw [hnum _ hlast, if_pos rfl] at hn
    rw [hsize _ hlast, if_pos rfl] at hs
    exact ⟨by omega, by omega⟩
  · rintro ⟨hn, hs⟩
    refine ⟨fun d hd => ?_, fun d hd => ?_⟩
    · rw [hnum d hd, hn, ite_self, add_zero]
    · rw [hsize d hd, hs, ite_self, add_zero]

end

/-! ### The statistics of one file -/

/-- The file is added as `c`, goes through the statuses `ds` and is deleted; another one moves from
`b` to `a`. -/
structure SpecExact (wl : Workload τ) (a b c : UInt8) (ds : List UInt8) (n : Int) : Prop where
  adds : AddsExactly wl c n
  moves : MovesExactly wl a b n
  deletes : SameSpec wl (lifetime wl n c ds)

theorem spec_exact_iff (wl : Workload τ) {a b c : UInt8} {ds : List UInt8} (ha : a ∈ counted)
    (hab : a ≠ b) (hc : c ∈ counted) (hds : ∀ d ∈ ds, d ∈ counted) (n : Int) :
    SpecExact wl a b c ds n ↔ InRange n := by
  constructor
  · exact fun h => (addsExactly_iff hc).mp h.adds
  · intro hn
    have hrest : n % 2 ^ 31 ≠ 0 := by
      obtain ⟨hlow, hhigh⟩ := hn
      omega
    exact ⟨(addsExactly_iff hc).mpr hn, (movesExactly_iff ha hab).mpr hn,
      (sameSpec_lifetime_iff hc hds).mpr hrest⟩

theorem spec_exact_three :
    SpecExact emptyWorkload statusValid statusUnconfirmed statusUnconfirmed [statusValid] 3 :=
  (spec_exact_iff emptyWorkload (by decide) (by decide) (by decide)
    (fun d hd => by rw [List.mem_singleton.mp hd]; decide) 3).mpr ⟨by omega, by omega⟩

section
variable {sha256 : Bytes → Hash} {mem : Mem}

theorem seal_counts_iff {senv : Seal.SealEnv} {tag : τ} {wl : Workload τ} {treeText path : Bytes}
    {res : Seal.SealResult τ}
    (h : Seal.storageSealFile sha256 mem senv tag wl treeText path = some res)
    (hs : res.status = .success) :
    ∃ treeJson, JsonParse.load mem treeText = .ok treeJson ∧
      ((specNum res.wl statusUnconfirmed = specNum wl statusUnconfirmed + 1 ∧
          specSize res.wl statusUnconfirmed =
            specSize wl statusUnconfirmed + (Merkle.treeOf treeJson).info.dataSize) ↔
        InRange (Merkle.treeOf treeJson).info.dataSize) := by
  have hc : statusUnconfirmed ∈ counted := by decide
  obtain ⟨treeJson, w, newRoot, newHash, orgHash, hload, -, -, -, -, hwl⟩ :=
    Seal.storageSealFile_success h hs
  refine ⟨treeJson, hload, ?_⟩
  rw [hwl, specNum_set _ hc, specSize_set _ hc, if_pos rfl, if_pos rfl, ← exact_iff]
  exact and_congr (add_right_inj _) (add_right_inj _)

end

def zeroInner : Bytes :=
  str "\x7b\"links_num\":1,\"links\":[" ++ Seal.abcLeaf ++
    str "],\"hash\":\"" ++ str "4f8b42c22dd3729b519ba6f68d2da7cc" ++
    str "5b2d606d05daed5ad5128cc03e6c6358" ++ str "\",\"size\":0\x7d"

theorem sealed_file_counts_down :
    (∃ res, Seal.sealSmall zeroInner (.success, some (str "abc")) = some res ∧
      res.status = .success ∧ res.wl.newFiles.map FileItem.oldSize = [0] ∧
      specNum res.wl statusUnconfirmed = -1) ∧
    ¬ SpecExact Seal.freshWorkload statusValid statusUnconfirmed statusUnconfirmed [] 0 := by
  refine ⟨?_, fun h => absurd (h.adds.num statusUnconfirmed (by decide)) (by decide +kernel)⟩
  have hrun : (Seal.sealSmall zeroInner (.success, some (str "abc"))).map
      (fun r => (r.status, r.wl.newFiles.map FileItem.oldSize, specNum r.wl statusUnconfirmed)) =
        some (.success, [0], -1) := by decide +kernel
  obtain ⟨res, h, hv⟩ := Option.map_eq_some_iff.mp hrun
  simp only [Prod.mk.injEq] at hv
  exact ⟨res, h, hv⟩

end CrustSworker.SpecSizes

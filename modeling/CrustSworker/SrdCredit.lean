import CrustSworker.Disk
import CrustSworker.SrdInfo

/-!
# What a credited G hash is worth

`srd_increase` with the files it leaves on the disk. It looks at the answers to
`ocall_create_dir`, to its allocations and to sealing, and at no other: `save_file` and
`save_m_hashs_file` return a status that is dropped, and that of `ocall_rename_dir` is not read.
-/

namespace CrustSworker.SrdCredit

open OrderedMap Srd

variable {τ : Type}

def slash : UInt8 := 47

def dash : UInt8 := 45

def getGPath (dirPath : Bytes) (nowIndex : Nat) : Bytes :=
  Disk.inDir slash dirPath (decNat (nowIndex + 1))

def getGPathWithHash (dirPath : Bytes) (hash : Hash) : Bytes :=
  Disk.inDir slash dirPath (hexstringSafe hash.val)

def leafName (nowIndex : Nat) (hash : Hash) : Bytes :=
  decNat (nowIndex + 1) ++ dash :: hexstringSafe hash.val

def getLeafPath (gPath : Bytes) (nowIndex : Nat) (hash : Hash) : Bytes :=
  Disk.inDir slash gPath (leafName nowIndex hash)

def srdMHashs : Bytes := str "m-hashs.bin"

def getMHashsFilePath (gPath : Bytes) : Bytes := Disk.inDir slash gPath srdMHashs

/-- The random index, and the answers that nothing looks at. -/
structure IncreaseHost where
  nowIndex : Nat
  saveFile : Nat → CrustStatus
  saveMHashs : CrustStatus
  renameDir : CrustStatus

def ocallSaveFile (status : CrustStatus) (d : Disk UInt8 Bytes) (path data : Bytes) :
    Disk UInt8 Bytes :=
  if status = .success then d.save path data else d

section
variable (sha256 : Bytes → Hash) (env : IncreaseEnv) (host : IncreaseHost)

def mHash (data : Bytes) : Hash := sgxSha256Msg sha256 (data.take srdRandDataLength)

def saveFiles (gPath : Bytes) : List Nat → Disk UInt8 Bytes → Disk UInt8 Bytes
  | [], d => d
  | i :: is, d =>
    match env.sealed i with
    | none => d
    | some data =>
      saveFiles gPath is (ocallSaveFile (host.saveFile i) d
        (getLeafPath gPath i (mHash sha256 data)) (data.take srdRandDataLength))

def diskAfter (d : Disk UInt8 Bytes) (path : Bytes) : Disk UInt8 Bytes :=
  let gPath := getGPath path host.nowIndex
  if ¬ env.baseBuffer then d
  else if env.createDir ≠ .success then d
  else if ¬ encMalloc env.allocHashs (srdRandDataNum * hashLength) then d
  else
    let d := saveFiles sha256 env host gPath (List.range srdRandDataNum) d
    match mHashs sha256 env.sealed (List.range srdRandDataNum) with
    | none => d
    | some hs =>
      let hashs := Workload.concatHashs hs
      let d := ocallSaveFile host.saveMHashs d (getMHashsFilePath gPath) hashs
      if host.renameDir = .success then
        d.rename slash gPath (getGPathWithHash path (sgxSha256Msg sha256 hashs))
      else d

def srdIncreaseOn (d : Disk UInt8 Bytes) (wl : Workload τ) (path : Bytes) :
    Disk UInt8 Bytes × Workload τ :=
  (diskAfter sha256 env host d path, srdIncrease sha256 env wl path)

end

structure IncreaseHost.Goes (host : IncreaseHost) : Prop where
  saveFile : ∀ i < srdRandDataNum, host.saveFile i = .success
  saveMHashs : host.saveMHashs = .success
  renameDir : host.renameDir = .success

def CreditsOnlyWhole (sha256 : Bytes → Hash) (env : IncreaseEnv) (host : IncreaseHost)
    (d : Disk UInt8 Bytes) (wl : Workload τ) (path : Bytes) : Prop :=
  (env.Goes ∧ host.Goes) ∨ (srdIncreaseOn sha256 env host d wl path).2 = wl

/-- The files of `g` under `path`, named and hashed as a later check expects them. -/
structure OnDisk (sha256 : Bytes → Hash) (d : Disk UInt8 Bytes) (path : Bytes) (g : Hash) : Prop where
  mHashs : ∃ hs : List Hash, hs.length = srdRandDataNum ∧
    d (getMHashsFilePath (getGPathWithHash path g)) = some (Workload.concatHashs hs) ∧
    sgxSha256Msg sha256 (Workload.concatHashs hs) = g ∧
    ∀ i h, hs[i]? = some h → ∃ data,
      d (getLeafPath (getGPathWithHash path g) i h) = some data ∧ sgxSha256Msg sha256 data = h

section
variable {sha256 : Bytes → Hash} {env : IncreaseEnv} {host : IncreaseHost} {d : Disk UInt8 Bytes}
  {wl : Workload τ} {path : Bytes}

/-! ### The files of a call -/

theorem leafName_index {i j : Nat} {h h' : Hash} (heq : leafName i h = leafName j h') : i = j := by
  have hnum := (decNat_mark_inj (by decide) heq).1
  omega

theorem leafName_ne_mHashs (i : Nat) (h : Hash) : leafName i h ≠ srdMHashs := by
  intro heq
  obtain ⟨c, s, hc⟩ := List.exists_cons_of_ne_nil (decNat_ne_nil (i + 1))
  have hdigit := decNat_digits (i + 1) c (by rw [hc]; exact List.mem_cons_self)
  rw [leafName, hc, List.cons_append] at heq
  obtain ⟨rfl, -⟩ := List.cons.inj (heq.trans (show srdMHashs = 109 :: srdMHashs.tail from rfl))
  exact absurd hdigit (by decide)

theorem saveFiles_kept {gPath : Bytes} {i : Nat} {h : Hash} {is : List Nat} (hi : i ∉ is)
    (d : Disk UInt8 Bytes) :
    saveFiles sha256 env host gPath is d (getLeafPath gPath i h) = d (getLeafPath gPath i h) := by
  induction is generalizing d with
  | nil => rfl
  | cons j is ih =>
    rw [List.mem_cons, not_or] at hi
    rw [saveFiles]
    cases env.sealed j with
    | none => rfl
    | some data =>
      dsimp only
      rw [ih hi.2, ocallSaveFile]
      have hne : getLeafPath gPath i h ≠ getLeafPath gPath j (mHash sha256 data) :=
        fun heq => hi.1 (leafName_index (Disk.inDir_injective slash gPath heq))
      split_ifs
      · exact Disk.save_of_ne hne _
      · rfl

theorem saveFiles_saved {gPath : Bytes} {i : Nat} {data : Bytes} {is : List Nat} (hi : i ∈ is)
    (hnodup : is.Nodup) (hall : ∀ j ∈ is, (env.sealed j).isSome = true)
    (hsealed : env.sealed i = some data) (hsave : host.saveFile i = .success)
    (d : Disk UInt8 Bytes) :
    saveFiles sha256 env host gPath is d (getLeafPath gPath i (mHash sha256 data)) =
      some (data.take srdRandDataLength) := by
  induction is generalizing d with
  | nil => cases hi
  | cons j is ih =>
    obtain ⟨hj, hnodup⟩ := List.nodup_cons.mp hnodup
    obtain ⟨data', hdata'⟩ := Option.isSome_iff_exists.mp (hall j List.mem_cons_self)
    rw [saveFiles, hdata']
    dsimp only
    rcases List.mem_cons.mp hi with rfl | hi
    · rw [hsealed] at hdata'
      cases hdata'
      rw [saveFiles_kept hj, ocallSaveFile, if_pos hsave]
      exact Disk.save_self _
    · exact ih hi hnodup (fun k hk => hall k (List.mem_cons_of_mem _ hk)) _

theorem mHashs_spec {sealed : Nat → Option Bytes} {is : List Nat} {hs : List Hash}
    (h : mHashs sha256 sealed is = some hs) : hs.length = is.length ∧
      ∀ (k : Nat) g, hs[k]? = some g → ∃ i data, is[k]? = some i ∧ sealed i = some data ∧
        g = mHash sha256 data := by
  induction is generalizing hs with
  | nil =>
    cases h
    exact ⟨rfl, fun k g hg => by cases hg⟩
  | cons i is ih =>
    rw [mHashs] at h
    cases hi : sealed i with
    | none =>
      rw [hi] at h
      cases h
    | some data =>
      cases hm : mHashs sha256 sealed is with
      | none =>
        rw [hi, hm] at h
        cases h
      | some rest =>
        rw [hi, hm] at h
        cases h
        obtain ⟨hlen, hrest⟩ := ih hm
        refine ⟨by rw [List.length_cons, List.length_cons, hlen], fun k g hg => ?_⟩
        cases k with
        | zero =>
          cases hg
          exact ⟨i, data, rfl, hi, rfl⟩
        | succ k => exact hrest k g hg

theorem saveFiles_failed (h : ∀ i, host.saveFile i ≠ .success) (gPath : Bytes) (is : List Nat)
    (d : Disk UInt8 Bytes) : saveFiles sha256 env host gPath is d = d := by
  induction is generalizing d with
  | nil => rfl
  | cons i is ih =>
    rw [saveFiles]
    cases env.sealed i with
    | none => rfl
    | some data => exact (ih _).trans (if_neg (h i))

theorem diskAfter_failed (hfile : ∀ i, host.saveFile i ≠ .success)
    (hhashs : host.saveMHashs ≠ .success) (hname : host.renameDir ≠ .success)
    (d : Disk UInt8 Bytes) (path : Bytes) :
    diskAfter sha256 env host d path = d := by
  unfold diskAfter
  simp only [saveFiles_failed hfile, ocallSaveFile, if_neg hhashs, if_neg hname]
  cases mHashs sha256 env.sealed (List.range srdRandDataNum) with
  | none => simp only [ite_self]
  | some hs => simp only [ite_self]

theorem goes_onDisk (henv : env.Goes) (hhost : host.Goes) {g : Hash}
    (hg : newGHash sha256 env = some g) :
    OnDisk sha256 (srdIncreaseOn sha256 env host d wl path).1 path g := by
  have hsealed := mHashs_isSome sha256 env.sealed (List.range srdRandDataNum)
  simp only [List.mem_range] at hsealed
  obtain ⟨hs, hm⟩ := Option.isSome_iff_exists.mp (hsealed.mpr henv.sealed)
  have hmalloc : encMalloc env.allocHashs (srdRandDataNum * hashLength) = true := by
    rw [henv.allocHashs]
    decide +kernel
  have hmalloc' : encMalloc env.allocHash hashLength = true := by
    rw [henv.allocHash]
    decide +kernel
  have hnew : newGHash sha256 env = some (sgxSha256Msg sha256 (Workload.concatHashs hs)) := by
    unfold newGHash
    rw [if_neg (not_not.mpr henv.baseBuffer), if_neg (not_not.mpr henv.createDir),
      if_neg (not_not.mpr hmalloc), hm]
    dsimp only
    rw [if_neg (not_not.mpr hmalloc'), if_neg (not_not.mpr henv.hexText)]
  obtain rfl := Option.some.inj (hg.symm.trans hnew)
  have hdisk : (srdIncreaseOn sha256 env host d wl path).1 =
      Disk.rename slash ((saveFiles sha256 env host (getGPath path host.nowIndex)
        (List.range srdRandDataNum) d).save (getMHashsFilePath (getGPath path host.nowIndex))
          (Workload.concatHashs hs)) (getGPath path host.nowIndex)
        (getGPathWithHash path (sgxSha256Msg sha256 (Workload.concatHashs hs))) := by
    unfold srdIncreaseOn diskAfter ocallSaveFile
    rw [if_neg (not_not.mpr henv.baseBuffer), if_neg (not_not.mpr henv.createDir),
      if_neg (not_not.mpr hmalloc), hm]
    dsimp only
    rw [if_pos hhost.renameDir, if_pos hhost.saveMHashs]
  obtain ⟨hlen, hspec⟩ := mHashs_spec hm
  rw [hdisk]
  refine ⟨hs, by rw [hlen, List.length_range], ?_, rfl, fun i h hi => ?_⟩
  · exact (Disk.rename_new slash _ _ _).trans (Disk.save_self _)
  · obtain ⟨j, data, hj, hdata, rfl⟩ := hspec i h hi
    obtain ⟨hlt, hval⟩ := List.getElem?_eq_some_iff.mp hj
    rw [List.length_range] at hlt
    rw [List.getElem_range] at hval
    subst hval
    refine ⟨data.take srdRandDataLength, ?_, rfl⟩
    have hne : getLeafPath (getGPath path host.nowIndex) i (mHash sha256 data) ≠
        getMHashsFilePath (getGPath path host.nowIndex) :=
      fun heq => leafName_ne_mHashs i _ (Disk.inDir_injective slash _ heq)
    refine (Disk.rename_new slash _ _ _).trans ((Disk.save_of_ne hne _).trans ?_)
    exact saveFiles_saved (List.mem_range.mpr hlt) List.nodup_range
      (fun k hk => henv.sealed k (List.mem_range.mp hk)) hdata (hhost.saveFile i hlt) d

theorem srdIncrease_credits {g : Hash} (hg : newGHash sha256 env = some g) (wl : Workload τ)
    (path : Bytes) :
    hashsOf (srdIncrease sha256 env wl path).srdPath2hashs path =
      hashsOf wl.srdPath2hashs path ++ [g.val] := by
  rw [srdIncrease, hg]
  exact (SrdInfo.hashsOf_pushHash _ _ _ _).trans (if_pos rfl)

theorem srdIncrease_ne (henv : env.Goes) : srdIncrease sha256 env wl path ≠ wl := by
  obtain ⟨g, hg⟩ := Option.isSome_iff_exists.mp ((newGHash_isSome sha256 env).mpr henv)
  intro heq
  have hcredit := srdIncrease_credits hg wl path
  rw [heq] at hcredit
  have hlen := congrArg List.length hcredit
  rw [List.length_append, List.length_singleton] at hlen
  omega

theorem srdIncrease_of_stopped (henv : ¬ env.Goes) : srdIncrease sha256 env wl path = wl := by
  have hnone : newGHash sha256 env = none := by
    rw [← newGHash_isSome sha256] at henv
    exact Option.not_isSome_iff_eq_none.mp henv
  rw [srdIncrease, hnone]

theorem host_goes_of_credited (henv : env.Goes)
    (h : CreditsOnlyWhole sha256 env host d wl path) : host.Goes := by
  rcases h with ⟨-, hhost⟩ | hsame
  · exact hhost
  · exact absurd hsame (srdIncrease_ne henv)

/-- Only whole G files are credited exactly when the dropped answers are those of success whenever
the call gets as far as crediting. -/
theorem credits_only_whole_iff :
    CreditsOnlyWhole sha256 env host d wl path ↔ (env.Goes → host.Goes) := by
  constructor
  · intro h henv
    exact host_goes_of_credited henv h
  · intro h
    by_cases henv : env.Goes
    · exact .inl ⟨henv, h henv⟩
    · exact .inr (srdIncrease_of_stopped henv)

end

/-! ### A full disk -/

def sealsAll : IncreaseEnv := ⟨true, .success, true, fun _ => some (str "sealed"), true, true⟩

def fullDisk : IncreaseHost := ⟨0, fun _ => .host 0x4024, .host 0x4024, .host 0x4027⟩

theorem credited_without_files :
    ∃ g : Hash,
      hashsOf (srdIncreaseOn SrdInfo.noHash sealsAll fullDisk (fun _ => none)
          SrdInfo.emptyWorkload (str "/a")).2.srdPath2hashs (str "/a") = [g.val] ∧
        (srdIncreaseOn SrdInfo.noHash sealsAll fullDisk (fun _ => none) SrdInfo.emptyWorkload
          (str "/a")).1 (getMHashsFilePath (getGPathWithHash (str "/a") g)) = none ∧
        ¬ CreditsOnlyWhole SrdInfo.noHash sealsAll fullDisk (fun _ => none) SrdInfo.emptyWorkload
          (str "/a") := by
  have henv : sealsAll.Goes := ⟨rfl, rfl, rfl, fun _ _ => rfl, rfl, rfl⟩
  obtain ⟨g, hg⟩ := Option.isSome_iff_exists.mp ((newGHash_isSome SrdInfo.noHash sealsAll).mpr henv)
  have hcredit := srdIncrease_credits hg SrdInfo.emptyWorkload (str "/a")
  have hnone : hashsOf SrdInfo.emptyWorkload.srdPath2hashs (str "/a") = [] := by decide
  rw [hnone, List.nil_append] at hcredit
  have hopen : CrustStatus.host 0x4024 ≠ .success := by decide
  have hdisk : diskAfter SrdInfo.noHash sealsAll fullDisk (fun _ => none) (str "/a") =
      fun _ => none :=
    diskAfter_failed (fun _ => hopen) hopen (by decide) _ _
  refine ⟨g, hcredit, ?_, ?_⟩
  · rw [srdIncreaseOn, hdisk]
  · intro h
    exact hopen (host_goes_of_credited henv h).saveMHashs

end CrustSworker.SrdCredit

import CrustSworker.JsonRead
import CrustSworker.SrdPass
import Mathlib.Data.List.Nodup
import Mathlib.Data.List.Perm.Basic

/-!
# An honest host is not punished

A validation pass among other calls, together with the disk of the host. The host stores what it
is asked to store, shows what is there, and may or may not delete what it is asked to delete. Then
every hash of the map has its files, so that nothing ever fails its check: the files of one G hash
are in a directory of their own, which no sealing and no deletion of another one touches. All this
as long as the hex texts have their buffers: without one the enclave asks for the directory of all.
-/

namespace CrustSworker.SrdHonest

open OrderedMap Srd SrdCredit SrdProof SrdDecrease SrdPass

variable {τ : Type}

structure World (τ : Type) where
  disk : Disk UInt8 Bytes
  pass : SrdPass.State τ

/-- A path that ends in the separator names the directory in front of it. -/
def folderOf (path : Bytes) : Bytes := if path.getLast? = some slash then path.dropLast else path

def deleteDirs (answer : Nat → CrustStatus) : List Bytes → Nat → Disk UInt8 Bytes → Disk UInt8 Bytes
  | [], _, d => d
  | dir :: dirs, k, d =>
    deleteDirs answer dirs (k + 1) (if answer k = .success then d.removeDir slash (folderOf dir) else d)

def hashAt (mem : Mem) (g : Bytes) : Bytes := (mem.read g hashLength).val

/-- The directories with the hex texts of these hashes; `hexText` tells which of the texts has a
buffer. -/
def dirsOf (hexText : Nat → Bool) (hashs : List (Bytes × Bytes)) : List Bytes :=
  hashs.mapIdx fun k p => Disk.inDir slash p.1 (hexstringSafeWith (hexText k) p.2)

section
variable (sha256 : Bytes → Hash) (mem : Mem)

def goneBy (m : PathMap) (change : Int) (del : DelIndex) : PathMap :=
  if min change (srdTotal m) = 0 then []
  else ((eraseChosen mem (chooseLoop m (min change (srdTotal m)) (srdTotal m + 1) 1 del
    (weigh List.length del)) m []).map Prod.snd).getD []

def deleted (gone : PathMap) : List (Bytes × Bytes) :=
  gone.flatMap fun entry => entry.2.map (Prod.mk entry.1)

def popped (m : PathMap) (entry : Bytes × JSON) : List (Bytes × Bytes) :=
  ((hashsOf m entry.1).reverse.take (realDeletedNum m entry.1 entry.2)).map fun g =>
    (entry.1, hashAt mem g)

/-- An act, and which of the hex texts for deletions it gets a buffer for. -/
abbrev Move := Act × (Nat → Bool)

def diskStep (w : World τ) : Move → Disk UInt8 Bytes
  | (.increase env host path, _) => diskAfter sha256 env host w.disk path
  | (.update answer entry, hexText) =>
    deleteDirs answer (dirsOf hexText (popped mem w.pass.wl.srdPath2hashs entry)) 0 w.disk
  | (.decrease answer change, hexText) =>
    deleteDirs answer (dirsOf hexText (deleted (goneBy mem w.pass.wl.srdPath2hashs change []))) 0
      w.disk
  | (.punish answer, hexText) =>
    deleteDirs answer (dirsOf hexText (deleted (goneBy mem w.pass.wl.srdPath2hashs
      (Surface.srdPunishFactor * weigh List.length w.pass.noted) w.pass.noted))) 0 w.disk
  | _ => w.disk

def step (w : World τ) (a : Move) : Option (World τ) :=
  (SrdPass.step sha256 mem w.pass a.1).map fun s => ⟨diskStep sha256 mem w a, s⟩

/-! ### An honest host -/

def Apart (p q : Bytes) : Prop := ¬ (p ++ [slash]) <+: q ∧ ¬ (q ++ [slash]) <+: p

/-- The host saves what it is given to save, under a path that is neither inside another one in use
nor around it, and the random data has not been drawn before. It shows the files that it has. The
hex texts of what is checked and deleted have their buffers. -/
def honest (w : World τ) : Move → Prop
  | (.increase env host path, _) =>
    (env.Goes → host.Goes) ∧ host.nowIndex < 2 ^ 64 ∧
      (∀ q, hashsOf w.pass.wl.srdPath2hashs q ≠ [] → q ≠ path → Apart path q) ∧
      ∀ hs, mHashs sha256 env.sealed (List.range srdRandDataNum) = some hs →
        (sgxSha256Msg sha256 (Workload.concatHashs hs)).val ∉
          hashsOf w.pass.wl.srdPath2hashs path
  | (.check host, _) => host.getFile = w.disk ∧ host.hexText = true
  | (.update _ _, hexText) | (.decrease _ _, hexText) => ∀ k, hexText k = true
  | _ => True

structure Inv (w : World τ) : Prop where
  sorted : Sorted ltBytes w.pass.wl.srdPath2hashs
  onDisk : ∀ path, ∀ b ∈ hashsOf w.pass.wl.srdPath2hashs path,
    ∃ g : Hash, b = g.val ∧ OnDisk sha256 w.disk path g
  nodup : ∀ path, (hashsOf w.pass.wl.srdPath2hashs path).Nodup
  apart : ∀ p q, hashsOf w.pass.wl.srdPath2hashs p ≠ [] → hashsOf w.pass.wl.srdPath2hashs q ≠ [] →
    p ≠ q → Apart p q
  noted : w.pass.noted = []
  failed : w.pass.failed = []

end

section
variable {sha256 : Bytes → Hash} {mem : Mem}

/-! ### The files of one hash -/

theorem slash_not_mem_hex (s : Bytes) : slash ∉ hexstringSafe s := by
  intro h
  obtain ⟨n, hn, hc⟩ := JsonParse.mem_hexstringSafe h
  revert hc
  interval_cases n <;> decide

theorem slash_not_mem_decNat (n : Nat) : slash ∉ decNat n :=
  fun h => absurd (decNat_digits n slash h) (by decide)

theorem slash_not_mem_leafName (i : Nat) (h : Hash) : slash ∉ leafName i h := by
  rw [leafName, List.mem_append, List.mem_cons]
  rintro (hd | hc | hh)
  · exact slash_not_mem_decNat _ hd
  · exact absurd hc (by decide)
  · exact slash_not_mem_hex _ hh

theorem onDisk_congr {d d' : Disk UInt8 Bytes} {path : Bytes} {g : Hash}
    (h : OnDisk sha256 d path g)
    (hsame : ∀ name, slash ∉ name → d' (Disk.inDir slash (getGPathWithHash path g) name) =
      d (Disk.inDir slash (getGPathWithHash path g) name)) : OnDisk sha256 d' path g := by
  obtain ⟨hs, hlen, hroot, hg, hleaves⟩ := h.mHashs
  refine ⟨hs, hlen, (hsame _ (by decide)).trans hroot, hg, fun i x hi => ?_⟩
  obtain ⟨data, hdata, hx⟩ := hleaves i x hi
  exact ⟨data, (hsame _ (slash_not_mem_leafName i x)).trans hdata, hx⟩

theorem apart_self (p : Bytes) : Apart p p := by
  have hlong : ¬ (p ++ [slash]) <+: p := fun h => by
    have := h.length_le
    rw [List.length_append, List.length_singleton] at this
    omega
  exact ⟨hlong, hlong⟩

theorem inDir_assoc (a b c : Bytes) :
    Disk.inDir slash (Disk.inDir slash a b) c = Disk.inDir slash a (Disk.inDir slash b c) := by
  simp [Disk.inDir]

theorem file_outside {p q c name : Bytes} {g : Hash} (hc : slash ∉ c)
    (hne : p = q → c ≠ hexstringSafe g.val) (hap : Apart p q) :
    Disk.inDir slash (getGPathWithHash q g) name ≠ Disk.inDir slash p c ∧
      ¬ (Disk.inDir slash p c ++ [slash]) <+: Disk.inDir slash (getGPathWithHash q g) name := by
  have hmark : slash ∈ Disk.inDir slash (hexstringSafe g.val) name :=
    List.mem_append_right _ List.mem_cons_self
  rw [getGPathWithHash, inDir_assoc]
  constructor
  · intro heq
    have hpre : Disk.inDir slash p c <+: Disk.inDir slash q
        (Disk.inDir slash (hexstringSafe g.val) name) := by
      rw [heq]
    obtain ⟨rfl, -⟩ := Disk.inDir_start slash hpre hap.1 hap.2
    rw [Disk.inDir_injective slash p heq] at hmark
    exact hc hmark
  · intro hpre
    have hdir : Disk.inDir slash p c ++ [slash] = Disk.inDir slash p (c ++ [slash]) := by
      simp [Disk.inDir]
    rw [hdir] at hpre
    obtain ⟨rfl, t, ht⟩ := Disk.inDir_start slash hpre hap.1 hap.2
    rw [List.append_assoc, List.singleton_append] at ht
    exact hne rfl (append_first_inj hc (slash_not_mem_hex _) ht).1

theorem deleteDirs_other (answer : Nat → CrustStatus) {dirs : List Bytes} {path : Bytes}
    (h : ∀ dir ∈ dirs, path ≠ folderOf dir ∧ ¬ (folderOf dir ++ [slash]) <+: path) (k : Nat)
    (d : Disk UInt8 Bytes) : deleteDirs answer dirs k d path = d path := by
  induction dirs generalizing k d with
  | nil => rfl
  | cons dir dirs ih =>
    obtain ⟨⟨hne, hpre⟩, hrest⟩ := List.forall_mem_cons.mp h
    rw [deleteDirs, ih hrest]
    split_ifs
    · exact Disk.removeDir_other slash hne hpre
    · rfl

/-! ### Sealing -/

variable {env : IncreaseEnv} {host : IncreaseHost}

theorem ocallSaveFile_other {status : CrustStatus} {d : Disk UInt8 Bytes} {path x : Bytes}
    (h : x ≠ path) (data : Bytes) : ocallSaveFile status d path data x = d x := by
  unfold ocallSaveFile
  split_ifs
  · exact Disk.save_of_ne h _
  · rfl

theorem ne_inDir {dir x : Bytes} (h : ¬ (dir ++ [slash]) <+: x) (name : Bytes) :
    x ≠ Disk.inDir slash dir name := by
  rintro rfl
  rw [Disk.inDir_eq] at h
  exact h (List.prefix_append _ _)

theorem saveFiles_other {gPath x : Bytes} (h : ¬ (gPath ++ [slash]) <+: x) (is : List Nat)
    (d : Disk UInt8 Bytes) : saveFiles sha256 env host gPath is d x = d x := by
  induction is generalizing d with
  | nil => rfl
  | cons i is ih =>
    rw [saveFiles]
    cases env.sealed i with
    | none => rfl
    | some data => exact (ih _).trans (ocallSaveFile_other (ne_inDir h _) _)

theorem diskAfter_other {path x : Bytes} (hold : ¬ (getGPath path host.nowIndex ++ [slash]) <+: x)
    (hnew : ∀ hs, mHashs sha256 env.sealed (List.range srdRandDataNum) = some hs →
      ¬ (getGPathWithHash path (sgxSha256Msg sha256 (Workload.concatHashs hs)) ++ [slash]) <+: x)
    (d : Disk UInt8 Bytes) : diskAfter sha256 env host d path x = d x := by
  have hsaved : saveFiles sha256 env host (getGPath path host.nowIndex)
      (List.range srdRandDataNum) d x = d x := saveFiles_other hold _ d
  unfold diskAfter
  dsimp only
  by_cases hbase : ¬ env.baseBuffer = true
  · rw [if_pos hbase]
  rw [if_neg hbase]
  by_cases hcreate : env.createDir ≠ .success
  · rw [if_pos hcreate]
  rw [if_neg hcreate]
  by_cases hmalloc : ¬ encMalloc env.allocHashs (srdRandDataNum * hashLength) = true
  · rw [if_pos hmalloc]
  rw [if_neg hmalloc]
  cases hm : mHashs sha256 env.sealed (List.range srdRandDataNum) with
  | none => exact hsaved
  | some hs =>
    have hboth : ocallSaveFile host.saveMHashs (saveFiles sha256 env host
        (getGPath path host.nowIndex) (List.range srdRandDataNum) d)
        (getMHashsFilePath (getGPath path host.nowIndex)) (Workload.concatHashs hs) x = d x :=
      (ocallSaveFile_other (ne_inDir hold srdMHashs) _).trans hsaved
    dsimp only
    split_ifs
    · exact (Disk.rename_other slash hold (hnew hs hm)).trans hboth
    · exact hboth

/-! ### Deletion -/

variable {w w' : World τ} {m m' gone gone' : PathMap}

theorem hashAt_val (mem : Mem) (g : Hash) : hashAt mem g.val = g.val := by
  have hread : mem.read g.val hashLength = g := mem.read_full g
  rw [hashAt, hread]

theorem erasePath_perm {path : Bytes} {is : List Nat}
    (h : erasePath mem path is m gone = some (m', gone')) (p : Bytes) :
    ((hashsOf m' p).map (hashAt mem) ++ hashsOf gone' p).Perm
      ((hashsOf m p).map (hashAt mem) ++ hashsOf gone p) := by
  induction is generalizing m gone with
  | nil =>
    cases h
    exact List.Perm.refl _
  | cons i is ih =>
    simp only [erasePath] at h
    split at h
    · cases h
    rename_i g hg
    refine (ih h).trans ?_
    rw [SrdInfo.hashsOf_insertKey, SrdInfo.hashsOf_pushHash]
    split_ifs with hp
    · subst hp
      obtain ⟨hi, rfl⟩ := List.getElem?_eq_some_iff.mp hg
      have hone := (List.getElem_cons_eraseIdx_perm hi).map (hashAt mem)
      rw [List.map_cons] at hone
      rw [← List.append_assoc]
      exact List.perm_append_comm.trans (hone.append_right _)
    · exact List.Perm.refl _

theorem eraseChosen_perm {del : DelIndex} (h : eraseChosen mem del m gone = some (m', gone'))
    (p : Bytes) : ((hashsOf m' p).map (hashAt mem) ++ hashsOf gone' p).Perm
      ((hashsOf m p).map (hashAt mem) ++ hashsOf gone p) := by
  induction del generalizing m gone with
  | nil =>
    cases h
    exact List.Perm.refl _
  | cons entry del ih =>
    simp only [eraseChosen] at h
    split at h
    · cases h
    rename_i r hr
    exact (ih h).trans (erasePath_perm hr p)

def Spares (mem : Mem) (m m' : PathMap) (taken : List (Bytes × Bytes)) : Prop :=
  ∀ q ∈ taken, ∃ x : Hash, q.2 = x.val ∧ hashsOf m q.1 ≠ [] ∧
    ∀ b ∈ hashsOf m' q.1, hashAt mem b ≠ x.val

theorem Inv.nodup_hashAt (h : Inv sha256 w) (mem : Mem) (p : Bytes) :
    ((hashsOf w.pass.wl.srdPath2hashs p).map (hashAt mem)).Nodup := by
  refine List.Nodup.map_on (fun a ha b hb heq => ?_) (h.nodup p)
  obtain ⟨g, rfl, -⟩ := h.onDisk p a ha
  obtain ⟨g', rfl, -⟩ := h.onDisk p b hb
  rwa [hashAt_val, hashAt_val] at heq

theorem decrease_spares (h : Inv sha256 w) {answer : Nat → CrustStatus} {change : Int} {n : Nat}
    {wl : Workload τ} (hd : srdDecrease mem answer w.pass.wl change [] = some (n, wl)) :
    Spares mem w.pass.wl.srdPath2hashs wl.srdPath2hashs
      (deleted (goneBy mem w.pass.wl.srdPath2hashs change [])) := by
  simp only [srdDecrease] at hd
  unfold goneBy
  split_ifs at hd ⊢
  · exact List.forall_mem_nil _
  · obtain ⟨⟨m₁, gone₁⟩, her, hr⟩ := Option.map_eq_some_iff.mp hd
    cases hr
    intro q hq
    have hgone : Sorted ltBytes gone₁ := (SrdInfo.eraseChosen_moved her).sorted (sorted_nil _)
    change q ∈ deleted (Option.map Prod.snd (eraseChosen mem (chooseLoop _ _ _ 1 []
      ((([] : DelIndex).map fun p => p.2.length).sum)) _ _)|>.getD []) at hq
    rw [her] at hq
    obtain ⟨entry, he, hmap⟩ := List.mem_flatMap.mp hq
    obtain ⟨x, hx, rfl⟩ := List.mem_map.mp hmap
    have hperm := eraseChosen_perm her entry.1
    rw [hashsOf_of_mem hgone he] at hperm
    have hnil : hashsOf ([] : PathMap) entry.1 = [] := rfl
    rw [hnil, List.append_nil] at hperm
    have hin := hperm.mem_iff.mp (List.mem_append_right _ hx)
    obtain ⟨b, hb, rfl⟩ := List.mem_map.mp hin
    refine ⟨_, rfl, List.ne_nil_of_mem hb, fun b' hb' heq => ?_⟩
    have hdisj := (List.nodup_append.mp (hperm.nodup_iff.mpr (h.nodup_hashAt mem entry.1))).2.2
    exact hdisj _ (List.mem_map.mpr ⟨b', hb', rfl⟩) _ hx heq

theorem update_spares (h : Inv sha256 w) (answer : Nat → CrustStatus) (entry : Bytes × JSON) :
    Spares mem w.pass.wl.srdPath2hashs (updateOn answer w.pass.wl entry).srdPath2hashs
      (popped mem w.pass.wl.srdPath2hashs entry) := by
  intro q hq
  obtain ⟨b, hb, rfl⟩ := List.mem_map.mp hq
  rw [List.take_reverse, List.mem_reverse] at hb
  refine ⟨_, rfl, List.ne_nil_of_mem (List.mem_of_mem_drop hb), fun b' hb' heq => ?_⟩
  rw [hashsOf_updateOn, if_pos rfl] at hb'
  have hnodup := h.nodup_hashAt mem entry.1
  rw [← List.take_append_drop ((hashsOf w.pass.wl.srdPath2hashs entry.1).length -
    realDeletedNum w.pass.wl.srdPath2hashs entry.1 entry.2)
    (hashsOf w.pass.wl.srdPath2hashs entry.1), List.map_append] at hnodup
  exact (List.nodup_append.mp hnodup).2.2 _ (List.mem_map.mpr ⟨b', hb', rfl⟩) _
    (List.mem_map.mpr ⟨b, hb, rfl⟩) heq

theorem mem_dirsOf {hexText : Nat → Bool} (hserved : ∀ k, hexText k = true)
    {taken : List (Bytes × Bytes)} {dir : Bytes} (h : dir ∈ dirsOf hexText taken) :
    ∃ q ∈ taken, ∀ x : Hash, q.2 = x.val → dir = getGPathWithHash q.1 x := by
  obtain ⟨k, hk, hdir⟩ := List.mem_mapIdx.mp h
  refine ⟨taken[k], List.getElem_mem hk, fun x hx => ?_⟩
  rw [← hdir, hx, hexstringSafeWith_hash, if_pos (hserved k), getGPathWithHash]

theorem folderOf_gPath (path : Bytes) (x : Hash) :
    folderOf (getGPathWithHash path x) = getGPathWithHash path x := by
  have hlen : (hexstringSafe x.val).length = 64 := by
    rw [JsonParse.length_hexstringSafe, x.property]
  have hne : hexstringSafe x.val ≠ [] := fun hnil => by
    rw [hnil] at hlen
    cases hlen
  refine if_neg fun hlast => slash_not_mem_hex x.val ?_
  rw [getGPathWithHash, Disk.inDir_eq, List.getLast?_append_of_ne_nil _ hne] at hlast
  exact List.mem_of_getLast? hlast

theorem Inv.delete (h : Inv sha256 w) {wl : Workload τ} (hm : Sorted ltBytes wl.srdPath2hashs)
    (hsub : ∀ p, (hashsOf wl.srdPath2hashs p).Sublist (hashsOf w.pass.wl.srdPath2hashs p))
    {taken : List (Bytes × Bytes)}
    (htaken : Spares mem w.pass.wl.srdPath2hashs wl.srdPath2hashs taken) {hexText : Nat → Bool}
    (hserved : ∀ k, hexText k = true) (answer : Nat → CrustStatus) :
    Inv sha256 ⟨deleteDirs answer (dirsOf hexText taken) 0 w.disk, { w.pass with wl := wl }⟩ := by
  have hne : ∀ p, hashsOf wl.srdPath2hashs p ≠ [] → hashsOf w.pass.wl.srdPath2hashs p ≠ [] :=
    fun p hp hnil => hp (List.sublist_nil.mp (hnil ▸ hsub p))
  refine ⟨hm, fun path b hb => ?_, fun p => (h.nodup p).sublist (hsub p),
    fun p q hp hq => h.apart p q (hne p hp) (hne q hq), h.noted, h.failed⟩
  obtain ⟨g, rfl, hdisk⟩ := h.onDisk path b ((hsub path).subset hb)
  refine ⟨g, rfl, onDisk_congr hdisk fun name _ => deleteDirs_other answer (fun dir hdir => ?_) 0 _⟩
  obtain ⟨q, hq, hpath⟩ := mem_dirsOf hserved hdir
  obtain ⟨x, hx, hp, hstay⟩ := htaken q hq
  rw [hpath x hx, folderOf_gPath]
  refine file_outside (slash_not_mem_hex _) ?_ ?_
  · rintro rfl heq
    have hsame := Function.LeftInverse.injective JsonParse.hexPairs_hexstringSafe heq
    exact hstay _ hb ((hashAt_val mem g).trans hsame.symm)
  · by_cases hpq : q.1 = path
    · rw [hpq]
      exact apart_self path
    · exact h.apart q.1 path hp (hne path (List.ne_nil_of_mem hb)) hpq

/-! ### One step -/

theorem Apart.symm {p q : Bytes} (h : Apart p q) : Apart q p := And.symm h

theorem increase_spares {path : Bytes}
    {hexText : Nat → Bool} (hh : honest sha256 w (.increase env host path, hexText)) {q : Bytes} {g : Hash}
    (hg : g.val ∈ hashsOf w.pass.wl.srdPath2hashs q) (hdisk : OnDisk sha256 w.disk q g) :
    OnDisk sha256 (diskAfter sha256 env host w.disk path) q g := by
  obtain ⟨-, hindex, hapart, hfresh⟩ := hh
  have hap : Apart path q := by
    by_cases hq : q = path
    · rw [hq]
      exact apart_self path
    · exact hapart q (List.ne_nil_of_mem hg) hq
  have hshort : (decNat (host.nowIndex + 1)).length ≤ 20 := decNat_length_le (by omega)
  refine onDisk_congr hdisk fun name _ => diskAfter_other ?_ ?_ _
  · refine (file_outside (slash_not_mem_decNat _) (fun _ heq => ?_) hap).2
    rw [heq, JsonParse.length_hexstringSafe, g.property] at hshort
    exact absurd hshort (by decide)
  · intro hs hm
    refine (file_outside (slash_not_mem_hex _) (fun heq hhex => ?_) hap).2
    have hsame := Function.LeftInverse.injective JsonParse.hexPairs_hexstringSafe hhex
    subst heq
    exact hfresh hs hm (hsame ▸ hg)

theorem Inv.increase (h : Inv sha256 w) {path : Bytes}
    {hexText : Nat → Bool} (hh : honest sha256 w (.increase env host path, hexText)) :
    Inv sha256 ⟨diskAfter sha256 env host w.disk path,
      { w.pass with wl := srdIncrease sha256 env w.pass.wl path }⟩ := by
  have hstay : ∀ q, ∀ b ∈ hashsOf w.pass.wl.srdPath2hashs q,
      ∃ g : Hash, b = g.val ∧ OnDisk sha256 (diskAfter sha256 env host w.disk path) q g := by
    intro q b hb
    obtain ⟨g, rfl, hdisk⟩ := h.onDisk q b hb
    exact ⟨g, rfl, increase_spares hh hb hdisk⟩
  have hsorted := (SrdLimit.increase_total sha256 h.sorted env path).1
  cases hg : newGHash sha256 env with
  | none =>
    have hsame : srdIncrease sha256 env w.pass.wl path = w.pass.wl := by rw [srdIncrease, hg]
    rw [hsame]
    exact ⟨h.sorted, hstay, h.nodup, h.apart, h.noted, h.failed⟩
  | some g =>
    have hmap : ∀ q, hashsOf (srdIncrease sha256 env w.pass.wl path).srdPath2hashs q =
        if q = path then hashsOf w.pass.wl.srdPath2hashs q ++ [g.val]
        else hashsOf w.pass.wl.srdPath2hashs q := by
      intro q
      rw [srdIncrease, hg]
      dsimp only
      exact SrdInfo.hashsOf_pushHash _ _ _ _
    obtain ⟨hgoes, -, hapart, hfresh⟩ := hh
    have henv : env.Goes := (newGHash_isSome sha256 env).mp (by rw [hg]; rfl)
    refine ⟨hsorted, fun q b hb => ?_, fun q => ?_, fun p q hp hq hne => ?_, h.noted, h.failed⟩
    · dsimp only at hb
      rw [hmap] at hb
      split_ifs at hb with hq
      · rcases List.mem_append.mp hb with hb | hb
        · exact hstay q b hb
        · rw [List.mem_singleton.mp hb, hq]
          have hnew : OnDisk sha256 (srdIncreaseOn sha256 env host w.disk w.pass.wl path).1 path g :=
            goes_onDisk henv (hgoes henv) hg
          exact ⟨g, rfl, hnew⟩
      · exact hstay q b hb
    · dsimp only
      rw [hmap]
      split_ifs with hq
      · obtain ⟨hs, hm, rfl⟩ := newGHash_mHashs hg
        refine List.nodup_append.mpr ⟨h.nodup q, List.nodup_singleton _, fun b hb c hc heq => ?_⟩
        rw [List.mem_singleton.mp hc] at heq
        rw [heq, hq] at hb
        exact hfresh hs hm hb
      · exact h.nodup q
    · have hold : ∀ r, r ≠ path →
          hashsOf (srdIncrease sha256 env w.pass.wl path).srdPath2hashs r ≠ [] →
          hashsOf w.pass.wl.srdPath2hashs r ≠ [] := by
        intro r hr hr'
        rwa [hmap, if_neg hr] at hr'
      by_cases hpp : p = path
      · subst hpp
        exact hapart q (hold q (Ne.symm hne) hq) (Ne.symm hne)
      · by_cases hqp : q = path
        · subst hqp
          exact (hapart p (hold p hpp hp) hpp).symm
        · exact h.apart p q (hold p hpp hp) (hold q hqp hq) hne

theorem onDisk_passes {d : Disk UInt8 Bytes} {path : Bytes} {g : Hash}
    (h : OnDisk sha256 d path g) {host : SrdHost} (hfile : host.getFile = d)
    (htext : host.hexText = true) (hmalloc : host.malloc = true) :
    checkSrd sha256 mem host path g.val = .passed := by
  obtain ⟨hs, hlen, hroot, hg, hleaves⟩ := h.mHashs
  have hlt : host.srdBlockIndex < hs.length := by
    rw [hlen]
    exact srdBlockIndex_lt host
  have hidx := List.getElem?_eq_getElem hlt
  obtain ⟨data, hdata, hsame⟩ := hleaves _ _ hidx
  rw [checkSrd_passed, hfile, gPath_served htext]
  refine ⟨_, data, hroot, ?_, hg.symm, ?_, ?_⟩
  · rw [hmalloc, Workload.length_concatHashs, hlen]
    decide
  · rw [leafHash_concatHashs mem hidx]
    exact hdata
  · rw [leafHash_concatHashs mem hidx]
    exact hsame.symm

theorem onDisk_spared {d : Disk UInt8 Bytes} {path : Bytes} {g : Hash}
    (h : OnDisk sha256 d path g) {host : SrdHost} (hfile : host.getFile = d)
    (htext : host.hexText = true) : checkSrd sha256 mem host path g.val ≠ .failed := by
  cases hmalloc : host.malloc with
  | true =>
    rw [onDisk_passes h hfile htext hmalloc]
    decide
  | false =>
    obtain ⟨hs, -, hroot, -⟩ := h.mHashs
    have hstarved : Starves host path g := by
      refine ⟨Workload.concatHashs hs, ?_, by rw [hmalloc, encMalloc, Bool.false_and]⟩
      rw [hfile, gPath_served htext]
      exact hroot
    rw [(checkSrd_starved g).mpr hstarved]
    decide

theorem Inv.check (h : Inv sha256 w) {host : SrdHost} (hfile : host.getFile = w.disk)
    (htext : host.hexText = true) (srdIdx : Nat × Nat) (todo : List (Nat × Nat)) :
    checkNext sha256 mem host w.pass srdIdx todo = { w.pass with todo := todo } := by
  unfold checkNext
  cases hd : drawn w.pass.wl.srdPath2hashs srdIdx with
  | none => rfl
  | some found =>
    obtain ⟨path, b⟩ := found
    obtain ⟨entry, he, hg⟩ := Option.bind_eq_some_iff.mp hd
    obtain ⟨b', hb', hpair⟩ := Option.map_eq_some_iff.mp hg
    cases hpair
    have hin : b ∈ hashsOf w.pass.wl.srdPath2hashs entry.1 := by
      rw [hashsOf_of_mem h.sorted (List.mem_of_getElem? he)]
      exact List.mem_of_getElem? hb'
    obtain ⟨g, rfl, hdisk⟩ := h.onDisk entry.1 b hin
    dsimp only
    rw [if_neg (onDisk_spared hdisk hfile htext)]

/-! ### Whole runs -/

theorem Inv.sameMap (h : Inv sha256 w) {s : SrdPass.State τ} (hwl : s.wl = w.pass.wl)
    (hnoted : s.noted = []) (hfailed : s.failed = []) : Inv sha256 ⟨w.disk, s⟩ :=
  ⟨hwl ▸ h.sorted, hwl ▸ h.onDisk, hwl ▸ h.nodup, hwl ▸ h.apart, hnoted, hfailed⟩

theorem Inv.punish (h : Inv sha256 w) {answer : Nat → CrustStatus} {hexText : Nat → Bool}
    (hstep : step sha256 mem w (.punish answer, hexText) = some w') :
    w'.pass.wl = w.pass.wl ∧ w'.disk = w.disk ∧ w'.pass.noted = [] ∧ w'.pass.failed = [] := by
  obtain ⟨s, hs, rfl⟩ := Option.map_eq_some_iff.mp hstep
  simp only [SrdPass.step] at hs
  split_ifs at hs
  obtain ⟨wl, hwl, rfl⟩ := Option.map_eq_some_iff.mp hs
  have hsame : w.pass.wl = wl := by
    rw [h.noted] at hwl
    exact Option.some.inj hwl
  refine ⟨hsame.symm, ?_, rfl, rfl⟩
  change deleteDirs answer (dirsOf hexText
    (deleted (goneBy mem _ (_ * weigh List.length w.pass.noted) _))) 0 _ = _
  rw [h.noted]
  have hnone : goneBy mem w.pass.wl.srdPath2hashs
      ((Surface.srdPunishFactor : Int) * (weigh List.length ([] : DelIndex) : Nat)) [] = [] := by
    refine if_pos ?_
    change min (2 * 0 : Int) _ = 0
    omega
  rw [hnone]
  rfl

theorem step_inv {a : Move} (hstep : step sha256 mem w a = some w') (ha : honest sha256 w a)
    (h : Inv sha256 w) : Inv sha256 w' := by
  obtain ⟨a, hexText⟩ := a
  cases a with
  | punish answer =>
    obtain ⟨hwl, hdisk, hnoted, hfailed⟩ := h.punish hstep
    have hinv := h.sameMap hwl hnoted hfailed
    rwa [← hdisk] at hinv
  | validate rand =>
    obtain ⟨s, hs, rfl⟩ := Option.map_eq_some_iff.mp hstep
    simp only [SrdPass.step] at hs
    split_ifs at hs
    · cases hs
      exact h.sameMap rfl h.noted h.failed
    · obtain ⟨idxs, -, rfl⟩ := Option.map_eq_some_iff.mp hs
      exact h.sameMap rfl rfl rfl
  | check host =>
    obtain ⟨s, hs, rfl⟩ := Option.map_eq_some_iff.mp hstep
    simp only [SrdPass.step] at hs
    split at hs
    · cases hs
      rw [h.check ha.1 ha.2]
      exact h.sameMap rfl h.noted h.failed
    · cases hs
  | increase env host path =>
    obtain ⟨s, hs, rfl⟩ := Option.map_eq_some_iff.mp hstep
    simp only [SrdPass.step] at hs
    split_ifs at hs
    obtain rfl := Option.some.inj hs
    have hinv := h.increase ha
    exact hinv
  | update answer entry =>
    obtain ⟨s, hs, rfl⟩ := Option.map_eq_some_iff.mp hstep
    simp only [SrdPass.step] at hs
    split_ifs at hs
    cases hs
    refine h.delete (SrdSampling.updatePath_popped h.sorted entry).sorted (fun p => ?_)
      (update_spares h answer entry) ha answer
    rw [hashsOf_updateOn]
    split_ifs
    · exact List.take_sublist _ _
    · exact List.Sublist.refl _
  | decrease answer change =>
    obtain ⟨s, hs, rfl⟩ := Option.map_eq_some_iff.mp hstep
    simp only [SrdPass.step] at hs
    obtain ⟨⟨n, wl⟩, hd, rfl⟩ := Option.map_eq_some_iff.mp hs
    obtain ⟨k, -, -, hmap⟩ := hashsOf_srdDecrease h.sorted hd
    refine h.delete (decrease_sorted h.sorted hd) (fun p => ?_) (decrease_spares h hd) ha answer
    rw [hmap]
    exact List.take_sublist _ _

theorem inv_start {wl : Workload τ} (h : wl.srdPath2hashs = []) (d : Disk UInt8 Bytes) :
    Inv sha256 ⟨d, start wl⟩ := by
  have hnone : ∀ p, hashsOf (start wl).wl.srdPath2hashs p = [] := by
    intro p
    change hashsOf wl.srdPath2hashs p = []
    rw [h]
    rfl
  refine ⟨?_, fun p b hb => ?_, fun p => ?_, fun p q hp => absurd (hnone p) hp, rfl, rfl⟩
  · change Sorted ltBytes wl.srdPath2hashs
    rw [h]
    exact sorted_nil _
  · dsimp only at hb
    rw [hnone] at hb
    cases hb
  · dsimp only
    rw [hnone]
    exact List.nodup_nil

/-- Whatever is sealed and deleted while passes run, with an honest host no hash ever fails its
check, every hash in the map can be shown, and no pass takes anything away. -/
theorem honest_never_punished {wl : Workload τ} {d : Disk UInt8 Bytes} {t : World τ}
    {as : List Move} (hempty : wl.srdPath2hashs = [])
    (hrun : Runs.run (step sha256 mem) ⟨d, start wl⟩ as = some t)
    (hok : Runs.Allowed (step sha256 mem) (honest sha256) ⟨d, start wl⟩ as) :
    t.pass.failed = [] ∧
      (∀ path, ∀ b ∈ hashsOf t.pass.wl.srdPath2hashs path,
        ∃ g : Hash, b = g.val ∧ OnDisk sha256 t.disk path g) ∧
      ∀ answer hexText t', step sha256 mem t (.punish answer, hexText) = some t' →
        t'.pass.wl = t.pass.wl ∧ t'.disk = t.disk := by
  have hinv : Inv sha256 t :=
    Runs.run_invariant_of (fun _ _ _ hstep ha h => step_inv hstep ha h) hrun hok
      (inv_start hempty d)
  refine ⟨hinv.failed, hinv.onDisk, fun answer hexText t' hstep => ?_⟩
  obtain ⟨hwl, hdisk, -⟩ := hinv.punish hstep
  exact ⟨hwl, hdisk⟩

end

/-! ### A pass and a deletion -/

def savesAll : IncreaseHost := ⟨0, fun _ => .success, .success, .success⟩

def emptyWorld : World Nat := ⟨fun _ => none, start SrdInfo.emptyWorkload⟩

def firstSealed : Disk UInt8 Bytes :=
  diskAfter Sha256.sha256 sealsAll savesAll (fun _ => none) (str "/a")

def bothSealed : Disk UInt8 Bytes :=
  diskAfter Sha256.sha256 sealsAll savesAll firstSealed (str "/b")

def showsAll : SrdHost := ⟨bothSealed, true, true, 0⟩

def sealCheckDelete : List Move :=
  [.increase sealsAll savesAll (str "/a"), .increase sealsAll savesAll (str "/b"),
    .validate fun _ => 0, .check showsAll, .check showsAll, .punish fun _ => .success,
    .update (fun _ => .success) (str "/a", .integral 1)].map fun a => (a, fun _ => true)

abbrev smallStep : World Nat → Move → Option (World Nat) := step Sha256.sha256 SrdInfo.noMem

structure Checking (g : Hash) (w : World Nat) (todo : List (Nat × Nat)) : Prop where
  inv : Inv Sha256.sha256 w
  disk : w.disk = bothSealed
  map : w.pass.wl.srdPath2hashs = [(str "/a", [g.val]), (str "/b", [g.val])]
  busy : w.pass.busy = true
  todo : w.pass.todo = todo

theorem Checking.next {g : Hash} {w : World Nat} {srdIdx : Nat × Nat} {todo : List (Nat × Nat)}
    (h : Checking g w (srdIdx :: todo)) :
    ∃ w', smallStep w (.check showsAll, fun _ => true) = some w' ∧
      honest Sha256.sha256 w (.check showsAll, fun _ => true) ∧ Checking g w' todo := by
  have hfile : showsAll.getFile = bothSealed := by simp only [showsAll]
  have hh : honest Sha256.sha256 w (.check showsAll, fun _ => true) :=
    ⟨hfile.trans h.disk.symm, by simp only [showsAll]⟩
  have hstep : smallStep w (.check showsAll, fun _ => true) =
      some ⟨w.disk, { w.pass with todo := todo }⟩ := by
    have hnext : checkNext Sha256.sha256 SrdInfo.noMem showsAll w.pass srdIdx todo =
        { w.pass with todo := todo } := h.inv.check hh.1 hh.2 srdIdx todo
    rw [smallStep, step, SrdPass.step, h.busy, h.todo]
    dsimp only
    rw [hnext]
    rfl
  refine ⟨_, hstep, hh, ?_⟩
  constructor
  · exact step_inv hstep hh h.inv
  · exact h.disk
  · exact h.map
  · exact h.busy
  · rfl

theorem step_increase {g : Hash} (hg : newGHash Sha256.sha256 sealsAll = some g) {w : World Nat}
    (hl : w.pass.locked = false) (path : Bytes) :
    ∃ w', smallStep w (.increase sealsAll savesAll path, fun _ => true) = some w' ∧
      w'.disk = diskAfter Sha256.sha256 sealsAll savesAll w.disk path ∧
      w'.pass = { w.pass with
        wl := { w.pass.wl with
          srdPath2hashs := Workload.pushHash w.pass.wl.srdPath2hashs path g.val
          srdInfoJson := setSrdInfo w.pass.wl.srdInfoJson path 1 } } := by
  refine ⟨⟨diskAfter Sha256.sha256 sealsAll savesAll w.disk path, { w.pass with
    wl := { w.pass.wl with
      srdPath2hashs := Workload.pushHash w.pass.wl.srdPath2hashs path g.val
      srdInfoJson := setSrdInfo w.pass.wl.srdInfoJson path 1 } }⟩, ?_, ?_, ?_⟩
  · simp only [step, SrdPass.step, hl, Bool.false_eq_true, if_false, Option.map_some, diskStep,
      srdIncrease, hg]
  · with_reducible rfl
  · with_reducible rfl

theorem honest_never_punished_two :
    ∃ t : World Nat, Runs.run smallStep emptyWorld sealCheckDelete = some t ∧
      t.pass.failed = [] ∧ hashsOf t.pass.wl.srdPath2hashs (str "/b") ≠ [] ∧
      ∀ path, ∀ b ∈ hashsOf t.pass.wl.srdPath2hashs path,
        ∃ g : Hash, b = g.val ∧ OnDisk Sha256.sha256 t.disk path g := by
  have henv : sealsAll.Goes := ⟨rfl, rfl, rfl, fun _ _ => rfl, rfl, rfl⟩
  have hsaves : savesAll.Goes := ⟨fun _ _ => rfl, rfl, rfl⟩
  obtain ⟨g, hg⟩ := Option.isSome_iff_exists.mp ((newGHash_isSome Sha256.sha256 sealsAll).mpr henv)
  -- Both paths get their hash.
  have ho₀ : honest Sha256.sha256 emptyWorld
      (.increase sealsAll savesAll (str "/a"), fun _ => true) := by
    refine ⟨fun _ => hsaves, by decide, fun q hq => absurd rfl hq, fun hs _ h => ?_⟩
    cases h
  obtain ⟨w₁, hs₁, hdisk₁, hpass₁⟩ := step_increase hg (w := emptyWorld) rfl (str "/a")
  have hinv₁ : Inv Sha256.sha256 w₁ := step_inv hs₁ ho₀ (inv_start rfl _)
  have hmap₁ : w₁.pass.wl.srdPath2hashs = [(str "/a", [g.val])] := by
    rw [hpass₁]
    rfl
  have ho₁ : honest Sha256.sha256 w₁
      (.increase sealsAll savesAll (str "/b"), fun _ => true) := by
    have hother : ∀ q, q ≠ str "/a" → hashsOf w₁.pass.wl.srdPath2hashs q = [] := by
      intro q hq
      rw [hmap₁]
      exact (SrdInfo.hashsOf_pushHash [] (str "/a") q g.val).trans (if_neg hq)
    refine ⟨fun _ => hsaves, by decide, fun q hq _ => ?_, fun hs _ h => ?_⟩
    · obtain rfl : q = str "/a" := by
        by_contra hne
        exact hq (hother q hne)
      exact ⟨by decide, by decide⟩
    · rw [hother _ (by decide)] at h
      cases h
  obtain ⟨w₂, hs₂, hdisk₂, hpass₂⟩ := step_increase hg (w := w₁) (by rw [hpass₁]; rfl) (str "/b")
  have hinv₂ : Inv Sha256.sha256 w₂ := step_inv hs₂ ho₁ hinv₁
  have hmap₂ : w₂.pass.wl.srdPath2hashs = [(str "/a", [g.val]), (str "/b", [g.val])] := by
    rw [hpass₂]
    dsimp only
    rw [hmap₁]
    rfl
  -- The pass draws both and ends without a punishment.
  obtain ⟨w₃, hs₃, hw₃⟩ : ∃ w₃, smallStep w₂ (.validate fun _ => 0, fun _ => true) = some w₃ ∧
      w₃ = ⟨w₂.disk, { w₂.pass with
        busy := true
        todo := [(0, 0), (1, 0)]
        noted := []
        failed := [] }⟩ := by
    have hidle : w₂.pass.busy = false := by
      rw [hpass₂, hpass₁]
      rfl
    have hstatus : w₂.pass.wl.upgradeStatus ≠ .success := by
      rw [hpass₂, hpass₁]
      exact (by decide : EncUpgradeStatus.none ≠ .success)
    have hdraw : SrdSampling.validateSrdIdxs (fun _ => 0) w₂.pass.wl.srdPath2hashs =
        some [(0, 0), (1, 0)] := by
      rw [hmap₂]
      rfl
    refine ⟨_, ?_, rfl⟩
    simp only [step, SrdPass.step, hidle, Bool.false_eq_true, if_false, if_neg hstatus, hdraw,
      Option.map_some, diskStep]
  have hcheck₃ : Checking g w₃ [(0, 0), (1, 0)] := by
    have hinv₃ : Inv Sha256.sha256 w₃ := step_inv hs₃ trivial hinv₂
    rw [hw₃] at hinv₃ ⊢
    refine ⟨hinv₃, ?_, hmap₂, rfl, rfl⟩
    rw [bothSealed, firstSealed, hdisk₂, hdisk₁, emptyWorld]
  obtain ⟨w₄, hs₄, ho₃, hcheck₄⟩ := hcheck₃.next
  obtain ⟨w₅, hs₅, ho₄, hcheck₅⟩ := hcheck₄.next
  obtain ⟨w₆, hs₆, hlocked₆⟩ : ∃ w₆,
      smallStep w₅ (.punish fun _ => .success, fun _ => true) = some w₆ ∧
        w₆.pass.locked = false := by
    have hlocked : w₅.pass.locked = true := by
      rw [SrdPass.State.locked, hcheck₅.busy, hcheck₅.todo]
      rfl
    simp only [step, SrdPass.step, hlocked, if_true, hcheck₅.inv.noted]
    exact ⟨_, rfl, rfl⟩
  obtain ⟨hwl₆, -⟩ := hcheck₅.inv.punish hs₆
  -- The hash of the first path is deleted.
  obtain ⟨w₇, hs₇, hwl₇⟩ : ∃ w₇,
      smallStep w₆ (.update (fun _ => .success) (str "/a", .integral 1), fun _ => true) = some w₇ ∧
        w₇.pass.wl = updateOn (fun _ => .success) w₆.pass.wl (str "/a", .integral 1) := by
    simp only [step, SrdPass.step, hlocked₆, Bool.false_eq_true, if_false]
    exact ⟨_, rfl, rfl⟩
  have hrun : Runs.run smallStep emptyWorld sealCheckDelete = some w₇ := by
    simp only [sealCheckDelete, List.map_cons, List.map_nil, Runs.run, hs₁, hs₂, hs₃, hs₄, hs₅, hs₆,
      hs₇]
  have hok : Runs.Allowed smallStep (honest Sha256.sha256) emptyWorld sealCheckDelete := by
    simp only [sealCheckDelete, List.map_cons, List.map_nil, Runs.Allowed, hs₁, hs₂, hs₃, hs₄, hs₅,
      hs₆, hs₇]
    exact ⟨ho₀, ho₁, trivial, ho₃, ho₄, trivial, fun _ => rfl, trivial⟩
  obtain ⟨hfailed, hdisk, -⟩ := honest_never_punished rfl hrun hok
  refine ⟨w₇, hrun, hfailed, ?_, hdisk⟩
  rw [hwl₇, hashsOf_updateOn, if_neg (by decide), hwl₆, hcheck₅.map]
  exact List.cons_ne_nil _ _

end CrustSworker.SrdHonest

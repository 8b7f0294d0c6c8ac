import CrustSworker.ReportScan
import CrustSworker.Runs
import CrustSworker.Sha256

/-!
# What the signed buffer of a report determines

The buffer is the concatenation of the fields of a report, with no separators. The
two lists at its end can be found from the right: they are the only text in which
brackets outside of strings balance, which `Quoting` makes precise. The numbers in
the middle can be told apart because the reserved size is a multiple of a gigabyte.
The height in front of the block hash cannot, unless its number of digits is known.
-/

namespace CrustSworker.ReportSignature

open Report Runs

variable {τ : Type}

/-! ### Quotes and brackets -/

inductive Quoting where
  | out
  | str
  | esc
  deriving DecidableEq

/-- A reader of JSON text: the quoting state, and how many brackets were opened outside
of strings. A backslash outside of a string and an unknown escape stop it. -/
def read : Quoting × Nat → UInt8 → Option (Quoting × Nat)
  | (.out, k), c =>
    if c = 34 then some (.str, k) else if c = 92 then none
    else if c = 91 then some (.out, k + 1) else some (.out, k)
  | (.str, k), c =>
    if c = 34 then some (.out, k) else if c = 92 then some (.esc, k) else some (.str, k)
  | (.esc, k), c =>
    if c ∈ [34, 92, 98, 102, 110, 114, 116] then some (.str, k) else none

structure Lists (k : Nat) (s : Bytes) : Prop where
  head : ∃ t, s = 91 :: t
  balanced : run read (.out, 0) s = some (.out, k)

theorem read_add {q q' : Quoting} {k k' : Nat} {c : UInt8} (h : read (q, k) c = some (q', k'))
    (j : Nat) : read (q, k + j) c = some (q', k' + j) := by
  cases q <;> simp only [read] at h ⊢ <;> split_ifs at h ⊢ <;> cases h <;>
    simp [Nat.add_right_comm]

theorem run_add {q q' : Quoting} {k k' : Nat} {s : Bytes}
    (h : run read (q, k) s = some (q', k')) (j : Nat) :
    run read (q, k + j) s = some (q', k' + j) := by
  induction s generalizing q k with
  | nil =>
    cases h
    rfl
  | cons c s ih =>
    obtain ⟨⟨q₁, k₁⟩, hc, hs⟩ := run_cons h
    simp only [run, read_add hc j]
    exact ih hs

theorem read_le {q q' : Quoting} {k k' : Nat} {c : UInt8} (h : read (q, k) c = some (q', k')) :
    k ≤ k' := by
  cases q <;> simp only [read] at h <;> split_ifs at h <;> cases h <;> omega

theorem run_le {q q' : Quoting} {k k' : Nat} {s : Bytes}
    (h : run read (q, k) s = some (q', k')) : k ≤ k' := by
  induction s generalizing q k with
  | nil =>
    cases h
    exact le_rfl
  | cons c s ih =>
    obtain ⟨⟨q₁, k₁⟩, hc, hs⟩ := run_cons h
    exact (read_le hc).trans (ih hs)

/-- Two readers of one text that start on different sides of a quote stay on different
sides: a backslash would stop the one outside. -/
theorem run_opposite {q₁ q₂ : Quoting} {k j k₁ k₂ : Nat} {s : Bytes}
    (h₁ : run read (.str, k) s = some (q₁, k₁)) (h₂ : run read (.out, j) s = some (q₂, k₂)) :
    ¬ (q₁ = .out ∧ q₂ = .out) := by
  induction s generalizing k j q₁ q₂ k₁ k₂ with
  | nil =>
    cases h₁
    rintro ⟨⟨⟩, -⟩
  | cons c s ih =>
    simp only [run, read] at h₁ h₂
    by_cases hq : c = 34
    · rw [if_pos hq] at h₁ h₂
      exact fun h => ih h₂ h₁ h.symm
    · rw [if_neg hq] at h₁ h₂
      by_cases hb : c = 92
      · rw [if_pos hb] at h₂
        cases h₂
      · rw [if_neg hb] at h₁ h₂
        split_ifs at h₂ with ho
        · exact ih h₁ h₂
        · exact ih h₁ h₂

theorem Lists.suffix {k : Nat} {u v : Bytes} (h : Lists k (u ++ v)) (hv : Lists k v) : u = [] := by
  by_contra hne
  obtain ⟨c, u, rfl⟩ := List.exists_cons_of_ne_nil hne
  obtain ⟨t, ht⟩ := h.head
  obtain rfl : c = 91 := (List.cons_eq_cons.mp ht).1
  have hrun := h.balanced
  rw [run_append] at hrun
  obtain ⟨⟨q, n⟩, hu, hrest⟩ := Option.bind_eq_some_iff.mp hrun
  cases q with
  | out =>
    -- The first bracket was counted already.
    have hn : 1 ≤ n := run_le (show run read (.out, 1) u = some (.out, n) from hu)
    have hadd := run_add hv.balanced n
    rw [Nat.zero_add, hrest] at hadd
    have := congrArg Prod.snd (Option.some.inj hadd)
    simp only at this
    omega
  | str => exact run_opposite hrest hv.balanced ⟨rfl, rfl⟩
  | esc =>
    obtain ⟨t', rfl⟩ := hv.head
    obtain ⟨s', hs', -⟩ := run_cons hrest
    cases hs'

theorem append_eq_of_lists {k : Nat} {u v s t : Bytes} (h : u ++ s = v ++ t) (hs : Lists k s)
    (ht : Lists k t) : u = v ∧ s = t := by
  obtain ⟨w, rfl, hw⟩ | ⟨w, rfl, hw⟩ := List.append_eq_append_iff.mp h
  · obtain rfl := (hw ▸ hs : Lists k (w ++ t)).suffix ht
    exact ⟨(List.append_nil u).symm, hw⟩
  · obtain rfl := (hw ▸ ht : Lists k (w ++ s)).suffix hs
    exact ⟨List.append_nil v, hw.symm⟩

/-! ### The two file lists -/

theorem run_str_of_plain {s : Bytes} (h : ∀ c ∈ s, c ≠ 34 ∧ c ≠ 92) (k : Nat) :
    run read (.str, k) s = some (.str, k) := by
  induction s with
  | nil => rfl
  | cons c s ih =>
    obtain ⟨hq, hb⟩ := h c (by simp)
    simp only [run, read, if_neg hq, if_neg hb]
    exact ih fun d hd => h d (by simp [hd])

theorem run_out_of_plain {s : Bytes} (h : ∀ c ∈ s, c ≠ 34 ∧ c ≠ 92 ∧ c ≠ 91) (k : Nat) :
    run read (.out, k) s = some (.out, k) := by
  induction s with
  | nil => rfl
  | cons c s ih =>
    obtain ⟨hq, hb, ho⟩ := h c (by simp)
    simp only [run, read, if_neg hq, if_neg hb, if_neg ho]
    exact ih fun d hd => h d (by simp [hd])

theorem run_jsonEscape (s : Bytes) (k : Nat) :
    run read (.str, k) (jsonEscape s) = some (.str, k) := by
  induction s with
  | nil => rfl
  | cons c s ih =>
    have hc : run read (.str, k) (escapeChar c) = some (.str, k) := by
      unfold escapeChar
      split_ifs with h1 h2
      all_goals first | rfl | simp [run, read, h1, h2]
    rw [jsonEscape, List.flatMap_cons, run_append, hc]
    exact ih

theorem hextable_plain (n : Nat) : hextable n ≠ 34 ∧ hextable n ≠ 92 := by
  by_cases hn : n < 16
  · have h : ∀ n < 16, hextable n ≠ 34 ∧ hextable n ≠ 92 := by decide
    exact h n hn
  · have hlen : (str "0123456789abcdef").length ≤ n := not_lt.mp hn
    rw [hextable, List.getD_eq_getElem?_getD, List.getElem?_eq_none hlen]
    decide

theorem hexstringSafe_plain (s : Bytes) : ∀ c ∈ hexstringSafe s, c ≠ 34 ∧ c ≠ 92 := by
  intro c hc
  obtain ⟨b, -, hb⟩ := List.mem_flatMap.mp hc
  simp only [List.mem_cons, List.not_mem_nil, or_false] at hb
  obtain rfl | rfl := hb
  · exact hextable_plain _
  · exact hextable_plain _

theorem decInt_plain (n : Int) : ∀ c ∈ decInt n, c ≠ 34 ∧ c ≠ 92 ∧ c ≠ 91 := by
  have hdig : ∀ c : UInt8, IsDigit c → c ≠ 34 ∧ c ≠ 92 ∧ c ≠ 91 := by
    rintro c ⟨hlo, hhi⟩
    refine ⟨?_, ?_, ?_⟩
    · rintro rfl
      exact absurd hlo (by decide)
    · rintro rfl
      exact absurd hhi (by decide)
    · rintro rfl
      exact absurd hhi (by decide)
  intro c hc
  unfold decInt at hc
  split_ifs at hc
  · obtain rfl | hc := List.mem_cons.mp hc
    · decide
    · exact hdig c (decNat_digits _ c hc)
  · exact hdig c (decNat_digits _ c hc)

theorem run_toStr (j : JSON) (k : Nat) : run read (.str, k) j.toStr = some (.str, k) := by
  cases j with
  | string s => exact run_jsonEscape s k
  | hash h => exact run_str_of_plain (hexstringSafe_plain h.val) k
  | integral n =>
    exact run_str_of_plain (fun c hc => ⟨(decInt_plain n c hc).1, (decInt_plain n c hc).2.1⟩) k
  | _ => rfl

theorem run_fileStr (f : FileItem τ) (k : Nat) :
    run read (.out, k) (fileStr f) = some (.out, k) := by
  have hhead : run read (.out, k) (str "\x7b\"" ++ fileHash ++ str "\":" ++ str "\"") =
      some (.str, k) := rfl
  have hmid : run read (.str, k) (str "\",") = some (.out, k) := rfl
  have hquote : run read (.out, k) (str "\"") = some (.str, k) := rfl
  have hkey : run read (.str, k) fileSize = some (.str, k) := rfl
  have hcolon : run read (.str, k) (str "\":") = some (.out, k) := rfl
  have hclose : run read (.out, k) (str "\x7d") = some (.out, k) := rfl
  unfold fileStr
  rw [run_append, run_append, run_append, run_append, run_append, run_append, run_append, hhead]
  simp only [Option.bind_some, run_toStr, hmid, hquote, hkey, hcolon,
    run_out_of_plain (decInt_plain _), hclose]

theorem run_openList (fs : List (FileItem τ)) :
    run read (.out, 0) (openList fs) = some (.out, 1) := by
  induction fs using List.reverseRecOn with
  | nil => rfl
  | append_singleton fs f ih =>
    have hcomma : run read (.out, 1) (str ",") = some (.out, 1) := rfl
    rw [openList_append, appendFile]
    split_ifs
    · rw [run_append, run_append, ih, Option.bind_some, hcomma, Option.bind_some, run_fileStr]
    · rw [run_append, ih, Option.bind_some, run_fileStr]

theorem openList_head (fs : List (FileItem τ)) : ∃ t, openList fs = 91 :: t := by
  induction fs using List.reverseRecOn with
  | nil => exact ⟨[], rfl⟩
  | append_singleton fs f ih =>
    obtain ⟨t, ht⟩ := ih
    rw [openList_append, appendFile, ht]
    split_ifs
    · exact ⟨_, rfl⟩
    · exact ⟨_, rfl⟩

theorem lists_openList (fs : List (FileItem τ)) : Lists 1 (openList fs ++ str "]") where
  head := by
    obtain ⟨t, ht⟩ := openList_head fs
    exact ⟨t ++ str "]", by rw [ht]; rfl⟩
  balanced := by
    rw [run_append, run_openList]
    rfl

def IsOpenList (τ : Type) (t : Bytes) : Prop := ∃ fs : List (FileItem τ), t = openList fs

theorem IsOpenList.append {t : Bytes} (h : IsOpenList τ t) (f : FileItem τ) :
    IsOpenList τ (appendFile t (fileStr f)) := by
  obtain ⟨fs, rfl⟩ := h
  exact ⟨fs ++ [f], (openList_append fs f).symm⟩

theorem enqueue_lists {s : Scan τ} (i : Nat) (f : FileItem τ) (ha : IsOpenList τ s.addedFiles)
    (hd : IsOpenList τ s.deletedFiles) :
    IsOpenList τ (enqueue s i f).addedFiles ∧ IsOpenList τ (enqueue s i f).deletedFiles := by
  unfold enqueue
  dsimp only
  split_ifs
  · exact ⟨ha, hd.append f⟩
  · exact ⟨ha.append f, hd⟩
  · exact ⟨ha, hd⟩

theorem scanFile_lists (up : Bool) {s : Scan τ} (f : FileItem τ)
    (ha : IsOpenList τ s.addedFiles) (hd : IsOpenList τ s.deletedFiles) :
    IsOpenList τ (scanFile up s f).addedFiles ∧ IsOpenList τ (scanFile up s f).deletedFiles := by
  unfold scanFile
  dsimp only
  split_ifs
  · exact ⟨ha, hd⟩
  · exact ⟨ha, hd⟩
  · exact enqueue_lists _ _ ha hd
  · exact ⟨ha, hd⟩
  · exact enqueue_lists _ _ ha hd
  · exact ⟨ha, hd⟩

theorem scanFiles_lists (up : Bool) (files : List (FileItem τ)) :
    IsOpenList τ (scanFiles up files).addedFiles ∧
      IsOpenList τ (scanFiles up files).deletedFiles := by
  have h : ∀ s : Scan τ, IsOpenList τ s.addedFiles → IsOpenList τ s.deletedFiles →
      IsOpenList τ (files.foldl (scanFile up) s).addedFiles ∧
        IsOpenList τ (files.foldl (scanFile up) s).deletedFiles := by
    induction files with
    | nil => exact fun s ha hd => ⟨ha, hd⟩
    | cons f files ih =>
      intro s ha hd
      obtain ⟨ha, hd⟩ := scanFile_lists up f ha hd
      exact ih _ ha hd
  exact h Scan.start ⟨[], rfl⟩ ⟨[], rfl⟩

/-! ### Reports and their buffers -/

def Placed (r : WorkReport τ) : Prop :=
  ∃ sha256 mem env wl blockHash blockHeight isUpgrading res sig,
    genWorkReport sha256 mem env wl blockHash blockHeight isUpgrading = some res ∧
      res.2.2 = some (r, sig)

theorem Placed.built {r : WorkReport τ} (h : Placed r) :
    ∃ (sha256 : Bytes → Hash) (mem : Mem) (wl : Workload τ) (blockHash : Bytes)
      (blockHeight : UInt64) (up : Bool) (hs : List Hash),
      (Workload.srdHashs mem wl.srdPath2hashs).length * hashLength ≤ heapMaxSize ∧
      r = buildReport sha256 mem wl blockHash blockHeight
        (scanFiles up (eraseGone wl.checkedFiles)) hs := by
  obtain ⟨sha256, mem, env, wl, blockHash, blockHeight, up, res, sig, hgen, hrep⟩ := h
  cases hp : heightExpired wl.reportHeight blockHeight with
  | true =>
    simp only [genWorkReport, hp, ↓reduceIte, Option.some.injEq] at hgen
    rw [← hgen] at hrep
    cases hrep
  | false =>
    obtain ⟨-, hsrd, -, hs, -, hr⟩ := (genWorkReport_outcome hp hgen).report r sig hrep
    exact ⟨sha256, mem, wl, blockHash, blockHeight, up, hs, hsrd, hr⟩

theorem Placed.lists {r : WorkReport τ} (h : Placed r) :
    Lists 1 r.addedFiles ∧ Lists 1 r.deletedFiles := by
  obtain ⟨sha256, mem, wl, blockHash, blockHeight, up, hs, -, rfl⟩ := h.built
  obtain ⟨⟨as, ha⟩, ⟨ds, hd⟩⟩ := scanFiles_lists up (eraseGone wl.checkedFiles)
  simp only [buildReport, ha, hd]
  exact ⟨lists_openList as, lists_openList ds⟩

theorem Placed.reserved {r : WorkReport τ} (h : Placed r) :
    2 ^ 30 ∣ r.reserved ∧ r.reserved < 2 ^ 30 * 10 ^ 10 := by
  obtain ⟨sha256, mem, wl, blockHash, blockHeight, up, hs, hsrd, rfl⟩ := h.built
  simp only [buildReport]
  split_ifs with h0
  · exact ⟨dvd_zero _, by decide⟩
  · simp only [hashLength, heapMaxSize] at hsrd
    have hw : srdWorkload (Workload.srdHashs mem wl.srdPath2hashs).length =
        2 ^ 30 * (Workload.srdHashs mem wl.srdPath2hashs).length := by
      unfold srdWorkload
      rw [Nat.mod_eq_of_lt (by omega)]
      omega
    rw [hw]
    exact ⟨dvd_mul_right _ _, by omega⟩

theorem prePub_inj {a b : Option PubKey} {s t : Bytes}
    (h : (match a with | some k => k.val | none => []) ++ s =
      (match b with | some k => k.val | none => []) ++ t) (hp : a.isSome = b.isSome) :
    a = b ∧ s = t := by
  cases a with
  | none =>
    cases b with
    | none => exact ⟨rfl, h⟩
    | some k => cases hp
  | some j =>
    cases b with
    | none => cases hp
    | some k =>
      obtain ⟨hk, hs⟩ := List.append_inj h (j.property.trans k.property.symm)
      exact ⟨congrArg some (Subtype.ext hk), hs⟩

/-- With the number of digits of the height known, the signed buffer determines every
field of the report. -/
theorem sigBuffer_determines {r₁ r₂ : WorkReport τ} (h₁ : Placed r₁) (h₂ : Placed r₂)
    (hpre : r₁.prePubKey.isSome = r₂.prePubKey.isSome)
    (hdigits : (decNat r₁.blockHeight.toNat).length = (decNat r₂.blockHeight.toNat).length)
    (hbuf : sigBuffer r₁ = sigBuffer r₂) :
    r₁.pubKey = r₂.pubKey ∧ r₁.prePubKey = r₂.prePubKey ∧ r₁.blockHeight = r₂.blockHeight ∧
      r₁.blockHash = r₂.blockHash ∧ r₁.reserved = r₂.reserved ∧ r₁.filesSize = r₂.filesSize ∧
      r₁.srdRoot = r₂.srdRoot ∧ r₁.filesRoot = r₂.filesRoot ∧ r₁.addedFiles = r₂.addedFiles ∧
      r₁.deletedFiles = r₂.deletedFiles := by
  obtain ⟨ha₁, hd₁⟩ := h₁.lists
  obtain ⟨ha₂, hd₂⟩ := h₂.lists
  obtain ⟨hdvd₁, hlt₁⟩ := h₁.reserved
  obtain ⟨hdvd₂, hlt₂⟩ := h₂.reserved
  unfold sigBuffer at hbuf
  -- The lists, from the right.
  obtain ⟨hbuf, hdel⟩ := append_eq_of_lists hbuf hd₁ hd₂
  obtain ⟨hbuf, hadd⟩ := append_eq_of_lists hbuf ha₁ ha₂
  obtain ⟨hbuf, hfiles⟩ :=
    List.append_inj' hbuf (r₁.filesRoot.property.trans r₂.filesRoot.property.symm)
  obtain ⟨hbuf, hsrd⟩ := List.append_inj' hbuf (r₁.srdRoot.property.trans r₂.srdRoot.property.symm)
  -- The keys, the height and the block hash, from the left.
  simp only [List.append_assoc] at hbuf
  obtain ⟨hpub, hbuf⟩ := List.append_inj hbuf (r₁.pubKey.property.trans r₂.pubKey.property.symm)
  obtain ⟨hprev, hbuf⟩ := prePub_inj hbuf hpre
  obtain ⟨hheight, hbuf⟩ := List.append_inj hbuf hdigits
  obtain ⟨hhash, hbuf⟩ :=
    List.append_inj hbuf (r₁.blockHash.property.trans r₂.blockHash.property.symm)
  obtain ⟨hres, hsize⟩ := decNat_decInt_unique (by decide) hdvd₁ hdvd₂ hlt₁ hlt₂ hbuf
  exact ⟨Subtype.ext hpub, hprev, UInt64.toNat_inj.mp (decNat_injective hheight),
    Subtype.ext hhash, hres, hsize, Subtype.ext hsrd, Subtype.ext hfiles, hadd, hdel⟩

def oneFile (size : Int) : Workload Unit :=
  { Workload.init ⟨⟨List.replicate 64 0, length_zeros64⟩, ⟨List.replicate 32 0, length_zeros32⟩⟩
      ⟨List.replicate 64 0, length_zeros64⟩ with
    srdPath2hashs := [(str "/srd", [List.replicate 32 7])]
    checkedFiles := [⟨(), ((JSON.null.put fileHash (.hash zeroHash)).put fileOldSize
      (.integral size)).put fileStatus (.string (str "111"))⟩]
    validatedProof := 1 }

def reportOf (size : Int) (blockHash : Bytes) (blockHeight : UInt64) :
    Option (GenResult Unit) :=
  genWorkReport Sha256.sha256 ⟨fun _ _ => 0⟩
    ⟨true, true, true, true, true, fun _ _ => some ⟨List.replicate 64 0, length_zeros64⟩⟩
    (oneFile size) blockHash blockHeight false

theorem placed_reportOf {size : Int} {blockHash : Bytes} {blockHeight : UInt64}
    {res : GenResult Unit} {r : WorkReport Unit} {sig : Signature}
    (h : reportOf size blockHash blockHeight = some res) (hr : res.2.2 = some (r, sig)) :
    Placed r :=
  ⟨_, _, _, _, _, _, _, res, sig, h, hr⟩

theorem sigBuffer_determines_oneFile :
    ∃ r₁ r₂ : WorkReport Unit, Placed r₁ ∧ Placed r₂ ∧ sigBuffer r₁ = sigBuffer r₂ ∧
      r₁.reserved = r₂.reserved ∧ r₁.filesSize = r₂.filesSize := by
  have hrun : (reportOf 5 [] 1000).map (fun res => res.2.2.isSome) = some true := by decide +kernel
  obtain ⟨res, hres, hsome⟩ := Option.map_eq_some_iff.mp hrun
  obtain ⟨⟨r, sig⟩, hr⟩ := Option.isSome_iff_exists.mp hsome
  have hp := placed_reportOf hres hr
  have h := sigBuffer_determines hp hp rfl rfl rfl
  exact ⟨r, r, hp, hp, rfl, h.2.2.2.2.1, h.2.2.2.2.2.1⟩

/-- One signed buffer, two reports: ten digits can belong to the block hash or to the
height, and the reserved size to the block hash or to the files. -/
theorem sigBuffer_ambiguous :
    ∃ r₁ r₂ : WorkReport Unit, Placed r₁ ∧ Placed r₂ ∧
      r₁.prePubKey.isSome = r₂.prePubKey.isSome ∧ sigBuffer r₁ = sigBuffer r₂ ∧
      r₁.filesSize ≠ r₂.filesSize := by
  have hrun : ((reportOf 10737418245 (str "30303030303030303030" ++ List.replicate 44 48)
        301).bind fun a =>
      (reportOf 5 (List.replicate 44 48 ++ str "31303733373431383234")
        3010000000000).bind fun b =>
      a.2.2.bind fun x => b.2.2.map fun y =>
        (decide (x.1.prePubKey.isSome = y.1.prePubKey.isSome),
          decide (sigBuffer x.1 = sigBuffer y.1), decide (x.1.filesSize ≠ y.1.filesSize))) =
      some (true, true, true) := by decide +kernel
  obtain ⟨a, ha, h⟩ := Option.bind_eq_some_iff.mp hrun
  obtain ⟨b, hb, h⟩ := Option.bind_eq_some_iff.mp h
  obtain ⟨⟨r₁, sig₁⟩, hr₁, h⟩ := Option.bind_eq_some_iff.mp h
  obtain ⟨⟨r₂, sig₂⟩, hr₂, h⟩ := Option.map_eq_some_iff.mp h
  simp only [Prod.mk.injEq, decide_eq_true_eq] at h
  exact ⟨r₁, r₂, placed_reportOf ha hr₁, placed_reportOf hb hr₂, h.1, h.2.1, h.2.2⟩

end CrustSworker.ReportSignature

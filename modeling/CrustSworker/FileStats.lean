import CrustSworker.Report
import CrustSworker.Runs
import CrustSworker.Seal
import CrustSworker.Sha256
import CrustSworker.Storage
import CrustSworker.Validator

/-!
# File statistics

`wl_spec_info` keeps, for each status, the number of file entries and the sum of their sizes.
It is changed entry by entry, each operation saying which status the entry had before. An entry
weighs one in the number and its size in the sum; the proofs are about sums of weights.
Confirming is the operation that does not look: it counts every entry it finds in
`checked_files` as an unconfirmed one.
-/

namespace CrustSworker.FileStats

open Report

variable {τ : Type}

def counted : List UInt8 := [statusUnconfirmed, statusValid, statusLost]

def specNum (wl : Workload τ) (c : UInt8) : Int :=
  ((wl.wlSpecInfo.get (fileStatusName c)).get (str "num")).toInt

def specSize (wl : Workload τ) (c : UInt8) : Int :=
  ((wl.wlSpecInfo.get (fileStatusName c)).get (str "size")).toInt

def entries (wl : Workload τ) : List (FileItem τ) := wl.checkedFiles ++ wl.newFiles

def withStatus (wl : Workload τ) (c : UInt8) : List (FileItem τ) :=
  (entries wl).filter fun f => decide (f.current = c)

structure StatsMatch (wl : Workload τ) : Prop where
  num : ∀ c ∈ counted, specNum wl c = (withStatus wl c).length
  size : ∀ c ∈ counted, specSize wl c = ((withStatus wl c).map FileItem.oldSize).sum

/-! ### Weights -/

def numWeight (c : UInt8) (f : FileItem τ) : Int := if f.current = c then 1 else 0

def sizeWeight (c : UInt8) (f : FileItem τ) : Int := if f.current = c then f.oldSize else 0

def total (w : FileItem τ → Int) (files : List (FileItem τ)) : Int := (files.map w).sum

theorem total_nil (w : FileItem τ → Int) : total w [] = 0 := rfl

theorem total_cons (w : FileItem τ → Int) (f : FileItem τ) (files : List (FileItem τ)) :
    total w (f :: files) = w f + total w files := by
  simp [total]

theorem total_append (w : FileItem τ → Int) (as bs : List (FileItem τ)) :
    total w (as ++ bs) = total w as + total w bs := by
  simp [total]

theorem total_numWeight (c : UInt8) (files : List (FileItem τ)) :
    total (numWeight c) files = (files.filter fun f => decide (f.current = c)).length := by
  induction files with
  | nil => rfl
  | cons f files ih =>
    rw [total_cons, ih, List.filter_cons, numWeight]
    split_ifs with h hd hd
    · rw [List.length_cons]
      omega
    · exact absurd (decide_eq_true h) hd
    · exact absurd (of_decide_eq_true hd) h
    · omega

theorem total_sizeWeight (c : UInt8) (files : List (FileItem τ)) :
    total (sizeWeight c) files =
      ((files.filter fun f => decide (f.current = c)).map FileItem.oldSize).sum := by
  induction files with
  | nil => rfl
  | cons f files ih =>
    rw [total_cons, ih, List.filter_cons, sizeWeight]
    split_ifs with h hd hd
    · rw [List.map_cons, List.sum_cons]
    · exact absurd (decide_eq_true h) hd
    · exact absurd (of_decide_eq_true hd) h
    · omega

theorem total_modify (w : FileItem τ → Int) {files : List (FileItem τ)} {i : Nat} {f : FileItem τ}
    (hi : files[i]? = some f) (g : FileItem τ → FileItem τ) :
    total w (files.modify i g) = total w files + (w (g f) - w f) := by
  induction files generalizing i with
  | nil => cases hi
  | cons e files ih =>
    cases i with
    | zero =>
      obtain rfl : e = f := by simpa using hi
      rw [List.modify_zero_cons, total_cons, total_cons]
      omega
    | succ i =>
      rw [List.modify_succ_cons, total_cons, total_cons, ih (by simpa using hi)]
      omega

theorem total_eraseIdx (w : FileItem τ → Int) {files : List (FileItem τ)} {i : Nat}
    {f : FileItem τ} (hi : files[i]? = some f) :
    total w (files.eraseIdx i) = total w files - w f := by
  induction files generalizing i with
  | nil => cases hi
  | cons e files ih =>
    cases i with
    | zero =>
      obtain rfl : e = f := by simpa using hi
      rw [List.eraseIdx_cons_zero, total_cons]
      omega
    | succ i =>
      rw [List.eraseIdx_cons_succ, total_cons, total_cons, ih (by simpa using hi)]
      omega

theorem total_map (w : FileItem τ → Int) (g : FileItem τ → FileItem τ) {files : List (FileItem τ)}
    (hg : ∀ f ∈ files, w (g f) = w f) : total w (files.map g) = total w files := by
  induction files with
  | nil => rfl
  | cons f files ih =>
    rw [List.map_cons, total_cons, total_cons, hg f List.mem_cons_self,
      ih fun e he => hg e (List.mem_cons_of_mem _ he)]

theorem total_filter (w : FileItem τ → Int) (p : FileItem τ → Bool) (files : List (FileItem τ))
    (hp : ∀ f ∈ files, p f = false → w f = 0) : total w (files.filter p) = total w files := by
  induction files with
  | nil => rfl
  | cons f files ih =>
    have hrest := ih fun e he => hp e (List.mem_cons_of_mem _ he)
    rw [List.filter_cons]
    split_ifs with h
    · rw [total_cons, total_cons, hrest]
    · rw [total_cons, hp f List.mem_cons_self (by simpa using h), hrest, zero_add]

theorem statsMatch_iff {wl : Workload τ} :
    StatsMatch wl ↔ ∀ c ∈ counted, specNum wl c = total (numWeight c) (entries wl) ∧
      specSize wl c = total (sizeWeight c) (entries wl) := by
  constructor
  · intro h c hc
    rw [total_numWeight, total_sizeWeight]
    exact ⟨h.num c hc, h.size c hc⟩
  · intro h
    refine ⟨fun c hc => ?_, fun c hc => ?_⟩
    · rw [(h c hc).1, total_numWeight]
      rfl
    · rw [(h c hc).2, total_sizeWeight]
      rfl

/-! ### The counters -/

theorem fileStatusName_eq_iff {c : UInt8} (hc : c ∈ counted) (d : UInt8) :
    fileStatusName d = fileStatusName c ↔ d = c := by
  refine ⟨fun h => ?_, fun h => by rw [h]⟩
  have hu : fileStatusName statusUnconfirmed = str "unconfirmed" := rfl
  have hv : fileStatusName statusValid = str "valid" := rfl
  have hl : fileStatusName statusLost = str "lost" := rfl
  simp only [counted, List.mem_cons, List.not_mem_nil, or_false] at hc
  rcases hc with rfl | rfl | rfl
  · rw [hu] at h
    unfold fileStatusName at h
    split_ifs at h with h1
    · exact h1
    all_goals exact absurd h (by decide)
  · rw [hv] at h
    unfold fileStatusName at h
    split_ifs at h with h1 h2
    · exact absurd h (by decide)
    · exact h2
    all_goals exact absurd h (by decide)
  · rw [hl] at h
    unfold fileStatusName at h
    split_ifs at h with h1 h2 h3
    · exact absurd h (by decide)
    · exact absurd h (by decide)
    · exact h3
    all_goals exact absurd h (by decide)

theorem bumpSpec_num (spec : JSON) (name k : Bytes) (dn ds : Int) :
    (((bumpSpec spec name dn ds).get k).get (str "num")).toInt =
      ((spec.get k).get (str "num")).toInt + if k = name then dn else 0 := by
  unfold bumpSpec
  dsimp only
  split_ifs with h
  · subst h
    rw [JSON.get_put_self, JSON.get_put_ne _ (by decide), JSON.get_put_self, JSON.get_put_self]
    rfl
  · rw [JSON.get_put_ne _ h, JSON.get_put_ne _ h]
    exact (add_zero _).symm

theorem bumpSpec_size (spec : JSON) (name k : Bytes) (dn ds : Int) :
    (((bumpSpec spec name dn ds).get k).get (str "size")).toInt =
      ((spec.get k).get (str "size")).toInt + if k = name then ds else 0 := by
  unfold bumpSpec
  dsimp only
  split_ifs with h
  · subst h
    rw [JSON.get_put_self, JSON.get_put_self, JSON.get_put_self, JSON.get_put_ne _ (by decide)]
    rfl
  · rw [JSON.get_put_ne _ h, JSON.get_put_ne _ h]
    exact (add_zero _).symm

def InRange (n : Int) : Prop := 1 ≤ n ∧ n < 2 ^ 31

instance (n : Int) : Decidable (InRange n) := inferInstanceAs (Decidable (_ ∧ _))

theorem toInt32_of_inRange {n : Int} (h : InRange n) : toInt32 n = n := by
  obtain ⟨h1, h2⟩ := h
  exact Int.bmod_eq_of_le (by omega) (by omega)

theorem toInt32_neg {n : Int} (h : InRange n) : toInt32 (-n) = -n := by
  obtain ⟨h1, h2⟩ := h
  exact Int.bmod_eq_of_le (by omega) (by omega)

theorem specNum_congr {wl wl' : Workload τ} (h : wl'.wlSpecInfo = wl.wlSpecInfo) (c : UInt8) :
    specNum wl' c = specNum wl c := by
  rw [specNum, h, specNum]

theorem specSize_congr {wl wl' : Workload τ} (h : wl'.wlSpecInfo = wl.wlSpecInfo) (c : UInt8) :
    specSize wl' c = specSize wl c := by
  rw [specSize, h, specSize]

section
variable {c : UInt8} {n : Int}

/-! The two overloads of `set_wl_spec` at any size. -/

theorem specNum_set (wl : Workload τ) (hc : c ∈ counted) (d : UInt8) (n : Int) :
    specNum (wl.setWlSpec d n) c = specNum wl c + if d = c then specSign (toInt32 n) else 0 := by
  simp only [specNum, Workload.setWlSpec, bumpSpec_num, eq_comm (a := fileStatusName c),
    fileStatusName_eq_iff hc d]

theorem specSize_set (wl : Workload τ) (hc : c ∈ counted) (d : UInt8) (n : Int) :
    specSize (wl.setWlSpec d n) c = specSize wl c + if d = c then toInt32 n else 0 := by
  simp only [specSize, Workload.setWlSpec, bumpSpec_size, eq_comm (a := fileStatusName c),
    fileStatusName_eq_iff hc d]

theorem specNum_shift (wl : Workload τ) (hc : c ∈ counted) (a b : UInt8) (n : Int) :
    specNum (wl.moveWlSpec a b n) c = specNum wl c +
      (if a = c then specSign (toInt32 n) else 0) - if b = c then specSign (toInt32 n) else 0 := by
  by_cases hab : a = b
  · rw [Workload.moveWlSpec, if_pos hab, hab]
    omega
  simp only [specNum, Workload.moveWlSpec, if_neg hab, bumpSpec_num,
    eq_comm (a := fileStatusName c), fileStatusName_eq_iff hc]
  split_ifs
  all_goals omega

theorem specSize_shift (wl : Workload τ) (hc : c ∈ counted) (a b : UInt8) (n : Int) :
    specSize (wl.moveWlSpec a b n) c = specSize wl c +
      (if a = c then toInt32 n else 0) - if b = c then toInt32 n else 0 := by
  by_cases hab : a = b
  · rw [Workload.moveWlSpec, if_pos hab, hab]
    omega
  simp only [specSize, Workload.moveWlSpec, if_neg hab, bumpSpec_size,
    eq_comm (a := fileStatusName c), fileStatusName_eq_iff hc]
  split_ifs
  all_goals omega

/-! The same at sizes in range. -/

theorem specSign_of_inRange (hn : InRange n) : specSign (toInt32 n) = 1 := by
  have hpos := hn.1
  rw [toInt32_of_inRange hn, specSign, if_pos (show n > 0 by omega)]

theorem specSign_neg (hn : InRange n) : specSign (toInt32 (-n)) = -1 := by
  have hpos := hn.1
  rw [toInt32_neg hn, specSign, if_neg (show ¬ -n > 0 by omega)]

theorem specNum_add (wl : Workload τ) (hc : c ∈ counted) (d : UInt8) (hn : InRange n) :
    specNum (wl.setWlSpec d n) c = specNum wl c + if d = c then 1 else 0 := by
  rw [specNum_set wl hc, specSign_of_inRange hn]

theorem specSize_add (wl : Workload τ) (hc : c ∈ counted) (d : UInt8) (hn : InRange n) :
    specSize (wl.setWlSpec d n) c = specSize wl c + if d = c then n else 0 := by
  rw [specSize_set wl hc, toInt32_of_inRange hn]

theorem specNum_drop (wl : Workload τ) (hc : c ∈ counted) (d : UInt8) (hn : InRange n) :
    specNum (wl.setWlSpec d (-n)) c = specNum wl c - if d = c then 1 else 0 := by
  rw [specNum_set wl hc, specSign_neg hn]
  split_ifs
  · omega
  · omega

theorem specSize_drop (wl : Workload τ) (hc : c ∈ counted) (d : UInt8) (hn : InRange n) :
    specSize (wl.setWlSpec d (-n)) c = specSize wl c - if d = c then n else 0 := by
  rw [specSize_set wl hc, toInt32_neg hn]
  split_ifs
  · omega
  · omega

theorem specNum_move (wl : Workload τ) (hc : c ∈ counted) (a b : UInt8) (hn : InRange n) :
    specNum (wl.moveWlSpec a b n) c =
      specNum wl c + (if a = c then 1 else 0) - if b = c then 1 else 0 := by
  rw [specNum_shift wl hc, specSign_of_inRange hn]

theorem specSize_move (wl : Workload τ) (hc : c ∈ counted) (a b : UInt8) (hn : InRange n) :
    specSize (wl.moveWlSpec a b n) c =
      specSize wl c + (if a = c then n else 0) - if b = c then n else 0 := by
  rw [specSize_shift wl hc, toInt32_of_inRange hn]

end

/-! ### Entries -/

structure EntryOk (f : FileItem τ) : Prop where
  status : f.HasStatus
  size : InRange f.oldSize

theorem EntryOk.set {f : FileItem τ} (h : EntryOk f) {i : Nat} (hi : i < 3) (c : UInt8) :
    EntryOk (f.setStatusChar i c) :=
  ⟨h.status.set hi c, by rw [FileItem.setStatusChar_oldSize]; exact h.size⟩

theorem EntryOk.current_set {f : FileItem τ} (h : EntryOk f) (c : UInt8) :
    (f.setStatusChar currentStatus c).current = c := h.status.char_self (by decide) c

theorem EntryOk.current_other {f : FileItem τ} (h : EntryOk f) {i : Nat} (hi : i < 3)
    (hne : currentStatus ≠ i) (c : UInt8) : (f.setStatusChar i c).current = f.current :=
  h.status.char_ne hi hne c

theorem EntryOk.weights {f : FileItem τ} (h : EntryOk f) {i : Nat} (hi : i < 3)
    (hne : currentStatus ≠ i) (d c : UInt8) :
    numWeight c (f.setStatusChar i d) = numWeight c f ∧
      sizeWeight c (f.setStatusChar i d) = sizeWeight c f := by
  simp only [numWeight, sizeWeight, h.current_other hi hne, FileItem.setStatusChar_oldSize,
    and_self]

theorem mem_modify {files : List (FileItem τ)} {i : Nat} {g : FileItem τ → FileItem τ}
    {f : FileItem τ} (h : f ∈ files.modify i g) : f ∈ files ∨ ∃ e ∈ files, f = g e := by
  induction files generalizing i with
  | nil => simp at h
  | cons e files ih =>
    cases i with
    | zero =>
      rw [List.modify_zero_cons] at h
      rcases List.mem_cons.mp h with rfl | h
      · exact .inr ⟨e, List.mem_cons_self, rfl⟩
      · exact .inl (List.mem_cons_of_mem _ h)
    | succ i =>
      rw [List.modify_succ_cons] at h
      rcases List.mem_cons.mp h with rfl | h
      · exact .inl List.mem_cons_self
      · rcases ih h with h | ⟨e', he', rfl⟩
        · exact .inl (List.mem_cons_of_mem _ h)
        · exact .inr ⟨e', List.mem_cons_of_mem _ he', rfl⟩

theorem modify_fixed {α : Type} {g : α → α} {l : List α} {i : Nat} {a : α} (hi : l[i]? = some a)
    (hg : g a = a) : l.modify i g = l := by
  apply List.ext_getElem?
  intro j
  rw [List.getElem?_modify]
  split_ifs with hj
  · rw [← hj, hi]
    exact congrArg some hg
  · exact Option.map_id'

theorem entriesOk_modify {files : List (FileItem τ)} {i : Nat} {g : FileItem τ → FileItem τ}
    (hg : ∀ f, EntryOk f → EntryOk (g f)) (h : ∀ f ∈ files, EntryOk f) :
    ∀ f ∈ files.modify i g, EntryOk f := by
  intro f hf
  rcases mem_modify hf with hf | ⟨e, he, rfl⟩
  · exact h f hf
  · exact hg e (h e he)

theorem findLast_spec {α : Type} {p : α → Bool} {l : List α} {i : Nat}
    (h : Storage.findLast p l = some i) : ∃ a, l[i]? = some a ∧ p a = true := by
  obtain ⟨j, hj, rfl⟩ := Option.map_eq_some_iff.mp h
  obtain ⟨hlt, hp, -⟩ := List.findIdx?_eq_some_iff_getElem.mp hj
  rw [List.length_reverse] at hlt
  refine ⟨l.reverse[j], ?_, hp⟩
  rw [List.getElem_reverse]
  exact List.getElem?_eq_getElem _

structure EntriesOk (wl : Workload τ) : Prop where
  checked : ∀ f ∈ wl.checkedFiles, EntryOk f
  new : ∀ f ∈ wl.newFiles, EntryOk f

structure Inv (wl : Workload τ) : Prop where
  checked : ∀ f ∈ wl.checkedFiles, EntryOk f
  new : ∀ f ∈ wl.newFiles, EntryOk f
  stats : StatsMatch wl

theorem Inv.ok {wl : Workload τ} (h : Inv wl) : EntriesOk wl := ⟨h.checked, h.new⟩

theorem total_entries (w : FileItem τ → Int) (wl : Workload τ) :
    total w (entries wl) = total w wl.checkedFiles + total w wl.newFiles :=
  total_append w _ _

/-- From `wl` to `wl'` the statistics change as the lists do, whether they match or not. -/
structure Tracks (wl wl' : Workload τ) : Prop where
  ok : EntriesOk wl'
  num : ∀ c ∈ counted, specNum wl' c - specNum wl c =
    total (numWeight c) (entries wl') - total (numWeight c) (entries wl)
  size : ∀ c ∈ counted, specSize wl' c - specSize wl c =
    total (sizeWeight c) (entries wl') - total (sizeWeight c) (entries wl)

theorem Tracks.refl {wl : Workload τ} (h : EntriesOk wl) : Tracks wl wl := by
  refine ⟨h, fun c _ => ?_, fun c _ => ?_⟩
  · omega
  · omega

theorem Tracks.inv {wl wl' : Workload τ} (ht : Tracks wl wl') (h : Inv wl) : Inv wl' := by
  refine ⟨ht.ok.checked, ht.ok.new, statsMatch_iff.mpr fun c hc => ?_⟩
  obtain ⟨hn, hs⟩ := statsMatch_iff.mp h.stats c hc
  have hn' := ht.num c hc
  have hs' := ht.size c hc
  omega

/-! ### Confirming and deleting -/

theorem confirmItem_ok (f : FileItem τ) (h : EntryOk f) : EntryOk (Storage.confirmItem f) := by
  unfold Storage.confirmItem
  split_ifs
  · exact h.set (by decide) _
  · exact h

theorem confirmItem_weights {f : FileItem τ} (h : EntryOk f) (hu : f.current = statusUnconfirmed)
    (c : UInt8) :
    numWeight c (Storage.confirmItem f) - numWeight c f =
        (if statusValid = c then 1 else 0) - (if statusUnconfirmed = c then 1 else 0) ∧
      sizeWeight c (Storage.confirmItem f) - sizeWeight c f =
        (if statusValid = c then f.oldSize else 0) -
          (if statusUnconfirmed = c then f.oldSize else 0) := by
  rw [Storage.confirmItem, if_pos hu]
  simp only [numWeight, sizeWeight, h.current_set, hu, FileItem.setStatusChar_oldSize, and_self]

theorem entries_move (wl : Workload τ) (a b : UInt8) (n : Int) :
    (wl.moveWlSpec a b n).checkedFiles = wl.checkedFiles ∧
      (wl.moveWlSpec a b n).newFiles = wl.newFiles := by
  unfold Workload.moveWlSpec
  split_ifs
  · exact ⟨rfl, rfl⟩
  · exact ⟨rfl, rfl⟩

section
variable {wl wl₁ : Workload τ} {f : FileItem τ}

structure Changed (wl wl₁ : Workload τ) (d ds : UInt8 → Int) : Prop where
  spec : wl₁.wlSpecInfo = wl.wlSpecInfo
  checked : ∀ f ∈ wl₁.checkedFiles, EntryOk f
  new : ∀ f ∈ wl₁.newFiles, EntryOk f
  num : ∀ c ∈ counted,
    total (numWeight c) (entries wl₁) = total (numWeight c) (entries wl) + d c
  size : ∀ c ∈ counted,
    total (sizeWeight c) (entries wl₁) = total (sizeWeight c) (entries wl) + ds c

theorem Changed.tracks (hch : Changed wl wl₁ (fun _ => 0) (fun _ => 0)) : Tracks wl wl₁ := by
  refine ⟨⟨hch.checked, hch.new⟩, fun c hc => ?_, fun c hc => ?_⟩
  · rw [specNum_congr hch.spec, hch.num c hc]
    omega
  · rw [specSize_congr hch.spec, hch.size c hc]
    omega

theorem Changed.tracks_move (hch : Changed wl wl₁
      (fun c => numWeight c (Storage.confirmItem f) - numWeight c f)
      (fun c => sizeWeight c (Storage.confirmItem f) - sizeWeight c f))
    (hok : EntryOk f) (hu : f.current = statusUnconfirmed) :
    Tracks wl (wl₁.moveWlSpec statusValid statusUnconfirmed f.oldSize) := by
  obtain ⟨hc₁, hn₁⟩ := entries_move wl₁ statusValid statusUnconfirmed f.oldSize
  have hentries : entries (wl₁.moveWlSpec statusValid statusUnconfirmed f.oldSize) =
      entries wl₁ := by rw [entries, hc₁, hn₁, entries]
  refine ⟨⟨by rw [hc₁]; exact hch.checked, by rw [hn₁]; exact hch.new⟩, ?_, ?_⟩
  · intro c hc
    rw [specNum_move _ hc _ _ hok.size, specNum_congr hch.spec, hentries, hch.num c hc,
      (confirmItem_weights hok hu c).1]
    omega
  · intro c hc
    rw [specSize_move _ hc _ _ hok.size, specSize_congr hch.spec, hentries, hch.size c hc,
      (confirmItem_weights hok hu c).2]
    omega

theorem Changed.tracks_drop (hch : Changed wl wl₁ (fun c => -numWeight c f)
      (fun c => -sizeWeight c f)) (hok : EntryOk f) :
    Tracks wl (wl₁.setWlSpec f.current (-f.oldSize)) := by
  have hentries : entries (wl₁.setWlSpec f.current (-f.oldSize)) = entries wl₁ := rfl
  refine ⟨⟨hch.checked, hch.new⟩, ?_, ?_⟩
  · intro c hc
    rw [specNum_drop _ hc _ hok.size, specNum_congr hch.spec, hentries, hch.num c hc, numWeight]
    omega
  · intro c hc
    rw [specSize_drop _ hc _ hok.size, specSize_congr hch.spec, hentries, hch.size c hc, sizeWeight]
    omega

theorem Changed.of_checked {i : Nat} {g : FileItem τ → FileItem τ} (h : EntriesOk wl)
    (hi : wl.checkedFiles[i]? = some f) (hg : ∀ f, EntryOk f → EntryOk (g f)) :
    Changed wl { wl with checkedFiles := wl.checkedFiles.modify i g }
      (fun c => numWeight c (g f) - numWeight c f) (fun c => sizeWeight c (g f) - sizeWeight c f) where
  spec := rfl
  checked := entriesOk_modify hg h.checked
  new := h.new
  num c _ := by
    rw [total_entries, total_entries, total_modify _ hi]
    dsimp only
    omega
  size c _ := by
    rw [total_entries, total_entries, total_modify _ hi]
    dsimp only
    omega

theorem Changed.of_new {i : Nat} {g : FileItem τ → FileItem τ} (h : EntriesOk wl)
    (hi : wl.newFiles[i]? = some f) (hg : ∀ f, EntryOk f → EntryOk (g f)) :
    Changed wl { wl with newFiles := wl.newFiles.modify i g }
      (fun c => numWeight c (g f) - numWeight c f) (fun c => sizeWeight c (g f) - sizeWeight c f) where
  spec := rfl
  checked := h.checked
  new := entriesOk_modify hg h.new
  num c _ := by
    rw [total_entries, total_entries, total_modify _ hi]
    dsimp only
    omega
  size c _ := by
    rw [total_entries, total_entries, total_modify _ hi]
    dsimp only
    omega

theorem counted_ne_deleted {c : UInt8} (hc : c ∈ counted) : statusDeleted ≠ c := by
  rintro rfl
  exact absurd hc (by decide)

theorem counted_ne_zero {c : UInt8} (hc : c ∈ counted) : 0 ≠ c := by
  rintro rfl
  exact absurd hc (by decide)

theorem Changed.of_deleted {i : Nat} (h : EntriesOk wl) (hi : wl.checkedFiles[i]? = some f) :
    Changed wl { wl with
        checkedFiles := Workload.setStatusAt wl.checkedFiles i currentStatus statusDeleted }
      (fun c => -numWeight c f) (fun c => -sizeWeight c f) := by
  have hok := h.checked f (List.mem_of_getElem? hi)
  have hch := Changed.of_checked (g := fun f => f.setStatusChar currentStatus statusDeleted) h hi
    fun e he => he.set (by decide) _
  refine ⟨rfl, hch.checked, hch.new, fun c hc => ?_, fun c hc => ?_⟩
  · have hzero : numWeight c (f.setStatusChar currentStatus statusDeleted) = 0 := by
      rw [numWeight, hok.current_set, if_neg (counted_ne_deleted hc)]
    have hnum := hch.num c hc
    rw [hzero, zero_sub] at hnum
    exact hnum
  · have hzero : sizeWeight c (f.setStatusChar currentStatus statusDeleted) = 0 := by
      rw [sizeWeight, hok.current_set, if_neg (counted_ne_deleted hc)]
    have hsize := hch.size c hc
    rw [hzero, zero_sub] at hsize
    exact hsize

theorem Changed.of_erased {i : Nat} (h : EntriesOk wl) (hi : wl.newFiles[i]? = some f) :
    Changed wl { wl with newFiles := wl.newFiles.eraseIdx i }
      (fun c => -numWeight c f) (fun c => -sizeWeight c f) where
  spec := rfl
  checked := h.checked
  new e he := h.new e (List.mem_of_mem_eraseIdx he)
  num c _ := by
    rw [total_entries, total_entries, total_eraseIdx _ hi]
    dsimp only
    omega
  size c _ := by
    rw [total_entries, total_entries, total_eraseIdx _ hi]
    dsimp only
    omega

end

theorem tracks_delete {wl : Workload τ} (h : EntriesOk wl) (hash : Bytes) :
    Tracks wl (Storage.storageDeleteFile wl hash) := by
  unfold Storage.storageDeleteFile
  split
  · rename_i i hi
    obtain ⟨hlt, -, -⟩ := List.findIdx?_eq_some_iff_getElem.mp hi
    have hget : wl.checkedFiles[i]? = some wl.checkedFiles[i] := List.getElem?_eq_getElem hlt
    generalize wl.checkedFiles[i] = f at hget
    simp only [Storage.dropSpec, hget]
    exact (Changed.of_deleted h hget).tracks_drop (h.checked f (List.mem_of_getElem? hget))
  · split
    · rename_i i hi
      obtain ⟨f, hget, -⟩ := findLast_spec hi
      simp only [Storage.dropSpec, hget]
      exact (Changed.of_erased h hget).tracks_drop (h.new f (List.mem_of_getElem? hget))
    · exact .refl h

def findsUnconfirmed (wl : Workload τ) (hash : Bytes) : Bool :=
  ((Storage.findLast (Storage.hasHash hash) wl.checkedFiles).bind fun i =>
    wl.checkedFiles[i]?).all fun f => decide (f.current = statusUnconfirmed)

theorem tracks_confirm {wl : Workload τ} (h : EntriesOk wl) {hash : Bytes}
    (hu : findsUnconfirmed wl hash = true) : Tracks wl (Storage.storageConfirmFile wl hash) := by
  unfold findsUnconfirmed at hu
  unfold Storage.storageConfirmFile
  cases hi : Storage.findLast (Storage.hasHash hash) wl.checkedFiles with
  | some i =>
    obtain ⟨f, hget, -⟩ := findLast_spec hi
    simp only [hi, hget, Option.bind_some, Option.all_some, decide_eq_true_eq] at hu
    simp only [Storage.oldSizeAt, hget]
    exact (Changed.of_checked h hget confirmItem_ok).tracks_move
      (h.checked f (List.mem_of_getElem? hget)) hu
  | none =>
    dsimp only
    split
    · rename_i i hi'
      obtain ⟨f, hget, hp⟩ := findLast_spec hi'
      simp only [Bool.and_eq_true, decide_eq_true_eq] at hp
      simp only [Storage.oldSizeAt, hget]
      exact (Changed.of_new h hget confirmItem_ok).tracks_move
        (h.new f (List.mem_of_getElem? hget)) hp.2
    · exact .refl h

theorem confirm_counts_twice {wl : Workload τ} (h : EntriesOk wl) {hash : Bytes}
    (hu : findsUnconfirmed wl hash = false) :
    (Storage.storageConfirmFile wl hash).checkedFiles = wl.checkedFiles ∧
      (Storage.storageConfirmFile wl hash).newFiles = wl.newFiles ∧
      specNum (Storage.storageConfirmFile wl hash) statusValid = specNum wl statusValid + 1 := by
  unfold findsUnconfirmed at hu
  unfold Storage.storageConfirmFile
  cases hi : Storage.findLast (Storage.hasHash hash) wl.checkedFiles with
  | some i =>
    obtain ⟨f, hget, -⟩ := findLast_spec hi
    have hok := h.checked f (List.mem_of_getElem? hget)
    simp only [hi, hget, Option.bind_some, Option.all_some, decide_eq_false_iff_not] at hu
    have hsame : { wl with checkedFiles := wl.checkedFiles.modify i Storage.confirmItem } = wl := by
      have hfixed : Storage.confirmItem f = f := if_neg hu
      rw [modify_fixed hget hfixed]
    simp only [Storage.oldSizeAt, hget, hsame]
    obtain ⟨hc₁, hn₁⟩ := entries_move wl statusValid statusUnconfirmed f.oldSize
    refine ⟨hc₁, hn₁, ?_⟩
    rw [specNum_move _ (by decide) _ _ hok.size, if_pos rfl, if_neg (by decide)]
    omega
  | none => simp [hi] at hu

theorem inv_confirm {wl : Workload τ} (h : Inv wl) (hash : Bytes) :
    (findsUnconfirmed wl hash = true → Inv (Storage.storageConfirmFile wl hash)) ∧
      (StatsMatch (Storage.storageConfirmFile wl hash) → findsUnconfirmed wl hash = true) := by
  refine ⟨fun hu => (tracks_confirm h.ok hu).inv h, fun hstats => ?_⟩
  by_contra hu
  obtain ⟨hc₁, hn₁, hspec⟩ := confirm_counts_twice h.ok (Bool.not_eq_true _ ▸ hu)
  have hbefore := (statsMatch_iff.mp h.stats statusValid (by decide)).1
  have hafter := (statsMatch_iff.mp hstats statusValid (by decide)).1
  rw [hspec, entries, hc₁, hn₁, ← entries] at hafter
  omega

/-! ### Reports -/

theorem scanFiles_items (isUpgrading : Bool) (files : List (FileItem τ)) :
    (scanFiles isUpgrading files).items =
      files.map fun f => if isUpgrading then f else f.setStatusChar waitingStatus f.current := by
  have henqueue : ∀ (s : Scan τ) i f, (enqueue s i f).items = s.items := by
    intro s i f
    unfold enqueue
    dsimp only
    split_ifs
    all_goals rfl
  have hstep : ∀ (s : Scan τ) f, (scanFile isUpgrading s f).items =
      s.items ++ [if isUpgrading then f else f.setStatusChar waitingStatus f.current] := by
    intro s f
    unfold scanFile
    cases isUpgrading with
    | false =>
      simp only [Bool.false_eq_true, if_false]
      split_ifs
      · simp only [henqueue]
      · rfl
      · simp only [henqueue]
      · rfl
    | true =>
      simp only [if_true]
      split_ifs
      · rfl
      · rfl
  have hfold : ∀ s : Scan τ, (files.foldl (scanFile isUpgrading) s).items = s.items ++
      files.map fun f => if isUpgrading then f else f.setStatusChar waitingStatus f.current := by
    induction files with
    | nil => intro s; simp
    | cons f files ih =>
      intro s
      rw [List.foldl_cons, ih, hstep, List.map_cons, List.append_assoc, List.singleton_append]
  exact hfold Scan.start

section
variable {wl wl' : Workload τ}

theorem tracks_scan (h : EntriesOk wl) (isUpgrading : Bool) (blockHeight : UInt64) :
    Tracks wl (settleReport (afterScan wl (scanFiles isUpgrading (eraseGone wl.checkedFiles)))
      blockHeight) := by
  have hmark : ∀ f : FileItem τ, EntryOk f →
      EntryOk (if isUpgrading then f else f.setStatusChar waitingStatus f.current) := by
    intro f hf
    split_ifs
    · exact hf
    · exact hf.set (by decide) _
  have hsame : ∀ c (f : FileItem τ), EntryOk f →
      numWeight c (if isUpgrading then f else f.setStatusChar waitingStatus f.current) =
          numWeight c f ∧
        sizeWeight c (if isUpgrading then f else f.setStatusChar waitingStatus f.current) =
          sizeWeight c f := by
    intro c f hf
    split_ifs
    · exact ⟨rfl, rfl⟩
    · exact hf.weights (by decide) (by decide) _ c
  have hkept : ∀ f ∈ eraseGone wl.checkedFiles, EntryOk f :=
    fun f hf => h.checked f (List.mem_of_mem_filter hf)
  have hgone : ∀ c ∈ counted, ∀ f ∈ wl.checkedFiles, (!isGone f) = false → f.current ≠ c := by
    intro c hc f _ hf
    rcases isGone_current (by simpa using hf) with hcur | hcur
    · rw [hcur]
      exact counted_ne_deleted hc
    · rw [hcur]
      exact counted_ne_zero hc
  refine Changed.tracks ⟨rfl, ?_, h.new, fun c hc => ?_, fun c hc => ?_⟩
  · intro f hf
    simp only [settleReport, Workload.reportReduceValidatedProof, afterScan, scanFiles_items,
      List.mem_map] at hf
    obtain ⟨e, he, rfl⟩ := hf
    exact hmark e (hkept e he)
  · rw [total_entries, total_entries]
    simp only [settleReport, Workload.reportReduceValidatedProof, afterScan, scanFiles_items]
    rw [total_map _ _ fun f hf => (hsame c f (hkept f hf)).1, eraseGone,
      total_filter _ _ _ fun f hf hp => by rw [numWeight, if_neg (hgone c hc f hf hp)], add_zero]
  · rw [total_entries, total_entries]
    simp only [settleReport, Workload.reportReduceValidatedProof, afterScan, scanFiles_items]
    rw [total_map _ _ fun f hf => (hsame c f (hkept f hf)).2, eraseGone,
      total_filter _ _ _ fun f hf hp => by rw [sizeWeight, if_neg (hgone c hc f hf hp)], add_zero]

theorem tracks_gen {sha256 : Bytes → Hash} {mem : Mem} {env : ReportEnv} {blockHash : Bytes}
    {blockHeight : UInt64} {isUpgrading : Bool} {res : GenResult τ} (h : EntriesOk wl)
    (hg : genWorkReport sha256 mem env wl blockHash blockHeight isUpgrading = some res) :
    Tracks wl res.2.1 := by
  by_cases hp : heightExpired wl.reportHeight blockHeight = true
  · unfold genWorkReport at hg
    rw [if_pos hp] at hg
    cases hg
    exact .refl h
  · rcases (genWorkReport_outcome (by simpa using hp) hg).settled with hs | hs
    · rw [hs]
      exact Changed.tracks
        ⟨rfl, h.checked, h.new, fun _ _ => (add_zero _).symm, fun _ _ => (add_zero _).symm⟩
    · rw [hs]
      exact tracks_scan h isUpgrading blockHeight

theorem ackFile_spec {files : List (FileItem τ)} (i : Nat) (h : ∀ f ∈ files, EntryOk f) :
    (∀ f ∈ Workload.ackFile files i, EntryOk f) ∧ ∀ c,
      total (numWeight c) (Workload.ackFile files i) = total (numWeight c) files ∧
        total (sizeWeight c) (Workload.ackFile files i) = total (sizeWeight c) files := by
  refine ⟨entriesOk_modify (fun f hf => hf.set (by decide) _) h, fun c => ?_⟩
  unfold Workload.ackFile
  cases hi : files[i]? with
  | none =>
    rw [List.modify_eq_self (List.getElem?_eq_none_iff.mp hi)]
    exact ⟨rfl, rfl⟩
  | some f =>
    obtain ⟨hn, hs⟩ :=
      (h f (List.mem_of_getElem? hi)).weights (i := originStatus) (by decide) (by decide) f.waiting c
    rw [total_modify _ hi, total_modify _ hi, hn, hs]
    omega

theorem ackFiles_spec (idxs : List Nat) {files : List (FileItem τ)} (h : ∀ f ∈ files, EntryOk f) :
    (∀ f ∈ idxs.foldl Workload.ackFile files, EntryOk f) ∧ ∀ c,
      total (numWeight c) (idxs.foldl Workload.ackFile files) = total (numWeight c) files ∧
        total (sizeWeight c) (idxs.foldl Workload.ackFile files) = total (sizeWeight c) files := by
  induction idxs generalizing files with
  | nil => exact ⟨h, fun _ => ⟨rfl, rfl⟩⟩
  | cons i idxs ih =>
    obtain ⟨hok, hw⟩ := ackFile_spec i h
    obtain ⟨hok', hw'⟩ := ih hok
    refine ⟨hok', fun c => ?_⟩
    rw [List.foldl_cons, (hw' c).1, (hw' c).2, (hw c).1, (hw c).2]
    exact ⟨rfl, rfl⟩

theorem tracks_ack (h : EntriesOk wl) : Tracks wl wl.handleReportResult := by
  obtain ⟨hok, hw⟩ := ackFiles_spec wl.reportedFilesIdx h.checked
  refine Changed.tracks ⟨rfl, hok, h.new, fun c _ => ?_, fun c _ => ?_⟩
  · rw [total_entries, total_entries]
    simp only [Workload.handleReportResult, (hw c).1, add_zero]
  · rw [total_entries, total_entries]
    simp only [Workload.handleReportResult, (hw c).2, add_zero]

theorem tracks_merge (h : EntriesOk wl) : Tracks wl (Validator.mergeNewFiles wl) := by
  refine Changed.tracks ⟨rfl, ?_, ?_, fun c _ => ?_, fun c _ => ?_⟩
  · intro f hf
    rcases List.mem_append.mp hf with hf | hf
    · exact h.checked f hf
    · exact h.new f hf
  · intro f hf
    cases hf
  · simp [entries, Validator.mergeNewFiles]
  · simp [entries, Validator.mergeNewFiles]

end

/-! ### Sealing -/

theorem sealed_entry (tag : τ) (nh oh : Hash) (ns : Nat) (os : Int) (bn : Nat)
    (hos : InRange os) :
    EntryOk (⟨tag, Seal.fileEntry nh oh ns os bn⟩ : FileItem τ) ∧
      (⟨tag, Seal.fileEntry nh oh ns os bn⟩ : FileItem τ).current = statusUnconfirmed ∧
      (⟨tag, Seal.fileEntry nh oh ns os bn⟩ : FileItem τ).oldSize = os := by
  have hstatus : (⟨tag, Seal.fileEntry nh oh ns os bn⟩ : FileItem τ).status =
      .string (str "000") := by
    simp [FileItem.status, Seal.fileEntry]
  have hsize : (⟨tag, Seal.fileEntry nh oh ns os bn⟩ : FileItem τ).oldSize = os :=
    Seal.fileEntry_oldSize nh oh ns os bn
  refine ⟨⟨⟨_, hstatus, rfl⟩, by rw [hsize]; exact hos⟩, ?_, hsize⟩
  rw [FileItem.current, FileItem.statusChar, hstatus]
  rfl

theorem tracks_add {wl : Workload τ} (h : EntriesOk wl) {f : FileItem τ} (hok : EntryOk f)
    (hcur : f.current = statusUnconfirmed) :
    Tracks wl ((wl.addNewFile f).setWlSpec statusUnconfirmed f.oldSize) := by
  have hentries : entries ((wl.addNewFile f).setWlSpec statusUnconfirmed f.oldSize) =
      entries wl ++ [f] := by
    simp [entries, Workload.addNewFile, Workload.setWlSpec]
  refine ⟨⟨h.checked, ?_⟩, ?_, ?_⟩
  · intro e he
    rcases List.mem_append.mp he with he | he
    · exact h.new e he
    · rw [List.mem_singleton.mp he]
      exact hok
  · intro c hc
    have hspec : specNum (wl.addNewFile f) c = specNum wl c := rfl
    rw [specNum_add _ hc _ hok.size, hspec, hentries, total_append, total_cons, total_nil,
      numWeight, hcur]
    omega
  · intro c hc
    have hspec : specSize (wl.addNewFile f) c = specSize wl c := rfl
    rw [specSize_add _ hc _ hok.size, hspec, hentries, total_append, total_cons, total_nil,
      sizeWeight, hcur]
    omega

/-! ### Whole runs -/

inductive Act (τ : Type) where
  | sealFile (env : Seal.SealEnv) (tag : τ) (treeText path : Bytes)
  | confirm (hash : Bytes)
  | delete (hash : Bytes)
  | merge
  | gen (env : ReportEnv) (blockHash : Bytes) (blockHeight : UInt64) (isUpgrading : Bool)
  | ack

section
variable (sha256 : Bytes → Hash) (mem : Mem)

def step (wl : Workload τ) : Act τ → Option (Workload τ)
  | .sealFile env tag treeText path =>
    (Seal.storageSealFile sha256 mem env tag wl treeText path).map fun res => res.wl
  | .confirm hash => some (Storage.storageConfirmFile wl hash)
  | .delete hash => some (Storage.storageDeleteFile wl hash)
  | .merge => some (Validator.mergeNewFiles wl)
  | .gen env blockHash blockHeight isUpgrading =>
    (genWorkReport sha256 mem env wl blockHash blockHeight isUpgrading).map fun res => res.2.1
  | .ack => some wl.handleReportResult

def sizesInRange (wl : Workload τ) : Act τ → Bool
  | .sealFile env tag treeText path =>
    (Seal.storageSealFile sha256 mem env tag wl treeText path).all fun res =>
      res.wl.newFiles.all fun f => decide (InRange f.oldSize)
  | _ => true

end

def confirmsUnconfirmed (wl : Workload τ) : Act τ → Bool
  | .confirm hash => findsUnconfirmed wl hash
  | _ => true

section
variable {sha256 : Bytes → Hash} {mem : Mem} {wl wl' : Workload τ}

theorem inv_sealFile {env : Seal.SealEnv} {tag : τ} {treeText path : Bytes}
    {res : Seal.SealResult τ} (h : Inv wl)
    (hres : Seal.storageSealFile sha256 mem env tag wl treeText path = some res)
    (hsize : ∀ f ∈ res.wl.newFiles, InRange f.oldSize) : Inv res.wl := by
  by_cases hs : res.status = .success
  · obtain ⟨treeJson, w, newRoot, newHash, orgHash, -, -, -, -, -, hwl⟩ :=
      Seal.storageSealFile_success hres hs
    rw [hwl] at hsize ⊢
    generalize (Merkle.treeOf treeJson).info.dataSize = os at hsize
    have hrange : InRange os := by
      have hlast := hsize ⟨tag, Seal.fileEntry newHash orgHash w.nodeSize os w.blockNum⟩
        (List.mem_append_right _ (List.mem_singleton.mpr rfl))
      rwa [FileItem.oldSize, Seal.fileEntry_oldSize] at hlast
    obtain ⟨hok, hcur, hos⟩ :=
      sealed_entry tag newHash orgHash w.nodeSize os w.blockNum hrange
    have hadd := (tracks_add h.ok hok hcur).inv h
    rwa [hos] at hadd
  · rw [Seal.storageSealFile_failed hres hs]
    exact h

theorem step_stats {a : Act τ} (hstep : step sha256 mem wl a = some wl')
    (hdom : sizesInRange sha256 mem wl a = true) (h : Inv wl) :
    (confirmsUnconfirmed wl a = true → Inv wl') ∧
      (StatsMatch wl' → confirmsUnconfirmed wl a = true) := by
  cases a with
  | sealFile env tag treeText path =>
    obtain ⟨res, hres, rfl⟩ := Option.map_eq_some_iff.mp hstep
    refine ⟨fun _ => inv_sealFile h hres fun f hf => ?_, fun _ => rfl⟩
    simp only [sizesInRange, hres, Option.all_some, List.all_eq_true, decide_eq_true_eq] at hdom
    exact hdom f hf
  | confirm hash =>
    cases hstep
    exact inv_confirm h hash
  | delete hash =>
    cases hstep
    exact ⟨fun _ => (tracks_delete h.ok hash).inv h, fun _ => rfl⟩
  | merge =>
    cases hstep
    exact ⟨fun _ => (tracks_merge h.ok).inv h, fun _ => rfl⟩
  | gen env blockHash blockHeight isUpgrading =>
    obtain ⟨res, hres, rfl⟩ := Option.map_eq_some_iff.mp hstep
    exact ⟨fun _ => (tracks_gen h.ok hres).inv h, fun _ => rfl⟩
  | ack =>
    cases hstep
    exact ⟨fun _ => (tracks_ack h.ok).inv h, fun _ => rfl⟩

theorem inv_init (keys : KeyPair) (pre : PubKey) : Inv (Workload.init keys pre : Workload τ) where
  checked f hf := by cases hf
  new f hf := by cases hf
  stats := by
    refine ⟨fun c hc => ?_, fun c hc => ?_⟩
    · simp only [counted, List.mem_cons, List.not_mem_nil, or_false] at hc
      rcases hc with rfl | rfl | rfl
      all_goals rfl
    · simp only [counted, List.mem_cons, List.not_mem_nil, or_false] at hc
      rcases hc with rfl | rfl | rfl
      all_goals rfl

/-- From an empty workload on, the statistics are those of the lists in every state exactly when
nothing in `checked_files` is confirmed a second time. -/
theorem stats_match_iff {keys : KeyPair} {pre : PubKey} {acts : List (Act τ)}
    {start t : Workload τ} (hinit : start = Workload.init keys pre)
    (hrun : Runs.run (step sha256 mem) start acts = some t)
    (hsizes : Runs.Allowed (step sha256 mem) (fun wl a => sizesInRange sha256 mem wl a = true)
      start acts) :
    Runs.Always (step sha256 mem) StatsMatch start acts ↔
      Runs.Allowed (step sha256 mem) (fun wl a => confirmsUnconfirmed wl a = true) start acts := by
  have h0 : Inv start := by
    rw [hinit]
    exact inv_init keys pre
  exact Runs.always_iff_allowed_of (fun _ h => h.stats)
    (fun _ _ _ hstep hdom h => step_stats hstep hdom h) hrun hsizes h0

end

/-! ### One small file -/

def emptyWorkload : Workload Nat :=
  Workload.init ⟨⟨List.replicate 64 0, length_zeros64⟩, zeroHash⟩ ⟨List.replicate 64 0, length_zeros64⟩

def smallStep : Workload Nat → Act Nat → Option (Workload Nat) :=
  step Sha256.sha256 ⟨fun _ _ => 0⟩

def smallHash : Bytes :=
  str "19f449d95c50fd941245c3d7865fbb3f" ++ str "6fbebe9e19f128bc58c3b4afd4354dcd"

def sealAndConfirm : List (Act Nat) :=
  [.sealFile (Seal.hostEnv (.success, some (str "abc"))) 0 Seal.abcLeaf (str "p"), .merge,
    .confirm smallHash]

theorem stats_match_small :
    ∃ t, Runs.run smallStep emptyWorkload sealAndConfirm = some t ∧ specNum t statusValid = 1 ∧
      Runs.Always smallStep StatsMatch emptyWorkload sealAndConfirm := by
  have hrun : ((Runs.run smallStep emptyWorkload sealAndConfirm).map fun t =>
      specNum t statusValid) = some 1 := by decide +kernel
  obtain ⟨t, ht, hnum⟩ := Option.map_eq_some_iff.mp hrun
  exact ⟨t, ht, hnum, (stats_match_iff rfl ht (by decide +kernel)).mpr (by decide +kernel)⟩

theorem confirmed_twice_counts_twice :
    ∃ t, Runs.run smallStep emptyWorkload (sealAndConfirm ++ [.confirm smallHash]) = some t ∧
      Runs.Allowed smallStep (fun wl a => sizesInRange Sha256.sha256 ⟨fun _ _ => 0⟩ wl a = true)
        emptyWorkload (sealAndConfirm ++ [.confirm smallHash]) ∧
      specNum t statusValid = 2 ∧ specNum t statusUnconfirmed = -1 ∧
      (withStatus t statusValid).length = 1 ∧ ¬ StatsMatch t := by
  have hrun : ((Runs.run smallStep emptyWorkload (sealAndConfirm ++ [.confirm smallHash])).map
      fun t => (specNum t statusValid, specNum t statusUnconfirmed,
        (withStatus t statusValid).length)) = some (2, -1, 1) := by decide +kernel
  obtain ⟨t, ht, h⟩ := Option.map_eq_some_iff.mp hrun
  simp only [Prod.mk.injEq] at h
  obtain ⟨hvalid, hunconfirmed, hlen⟩ := h
  refine ⟨t, ht, by decide +kernel, hvalid, hunconfirmed, hlen, fun hstats => ?_⟩
  have hnum := hstats.num statusValid (by decide)
  rw [hvalid, hlen] at hnum
  exact absurd hnum (by decide)

end CrustSworker.FileStats

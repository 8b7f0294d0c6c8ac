import CrustSworker.SrdInfo
import CrustSworker.UpgradeGenuine
import CrustSworker.Validator

/-!
# The report of the hand-over

The old enclave uploads a last report and then serializes; the new one makes a report from
what was serialized. The old report counts a file by its origin status and up to a thousand
pending changes, the new one by the current and the origin status together. In between
validation and the srd tasks go on. This module has the machine of the hand-over, the figures
of a report, and what ties an entry to its row in the last report while steps interleave.
-/

namespace CrustSworker.UpgradeReport

open Report Upgrade JsonParse OrderedMap

variable {τ : Type}

/-! ### What goes on meanwhile -/

/-- The steps of a validation pass and the srd tasks. `srdDecrease` is also what
`validate_srd` does with the G hashes it could not read. -/
inductive Act where
  | merge
  | initFailed
  | check (env : Validator.CheckEnv) (i : Nat)
  | settle (changed : List (Nat × Bool))
  | srdIncrease (env : Srd.IncreaseEnv) (path : Bytes)
  | srdDecrease (answer : Nat → CrustStatus) (change : Int) (del : Srd.DelIndex)
  | srdUpdateMetadata (answer : Nat → CrustStatus) (hashs : Bytes)

section
variable (sha256 : Bytes → Hash) (mem : Mem)

def perform (wl : Workload τ) : Act → Option (Workload τ)
  | .merge => some (Validator.mergeNewFiles wl)
  | .initFailed => some (Validator.initFailed wl)
  | .check env i => (Validator.checkFile sha256 mem env ⟨wl, [], false⟩ i).map Validator.Pass.wl
  | .settle changed => some (Validator.settleChanged wl changed)
  | .srdIncrease env path =>
    some (if wl.upgradeStatus = .process then wl else Srd.srdIncrease sha256 env wl path)
  | .srdDecrease answer change del => (Srd.srdDecrease mem answer wl change del).map Prod.snd
  | .srdUpdateMetadata answer hashs => Srd.srdUpdateMetadata mem answer wl hashs

def knownStatus (wl : Workload τ) (i : Nat) (f : FileItem τ) : UInt8 :=
  if i ∈ wl.reportedFilesIdx then f.waiting else f.origin

/-- No valid file that the report counts fails its check. -/
def KeepsFiles (wl : Workload τ) : Act → Prop
  | .check env i =>
    ∀ f, wl.checkedFiles[i]? = some f → Validator.judgeFile sha256 mem env f = some .failed →
      f.current = statusValid → knownStatus wl i f ≠ statusValid
  | _ => True

/-- The srd task finds nothing to add or to delete. -/
def KeepsSrd (wl : Workload τ) : Act → Prop
  | .srdIncrease env _ => wl.upgradeStatus = .process ∨ Srd.newGHash sha256 env = none
  | .srdDecrease _ change del =>
    (change ≤ 0 ∧ del = []) ∨ (0 < change ∧ Srd.srdTotal wl.srdPath2hashs = 0)
  | .srdUpdateMetadata _ hashs =>
    ∀ doc, JsonParse.load mem hashs = .ok doc → ∀ entry ∈ doc.objectRange,
      sizeT entry.2.toInt = 0 ∨ Srd.hashsOf wl.srdPath2hashs entry.1 = []
  | _ => True

end

/-! ### The hand-over as a machine -/

/-- Where `id_gen_upgrade_data` stands, with what it holds in its local variables. -/
inductive Phase (τ : Type) where
  | idle
  | waiting (last : LastReport τ)
  | uploaded (last : LastReport τ)
  | srdDone (last : LastReport τ) (srd : Bytes)
  | filesDone (last : LastReport τ) (srd files : Bytes)
  | done (last : LastReport τ) (data : Bytes)

structure State (τ : Type) where
  wl : Workload τ
  phase : Phase τ

inductive Move where
  | gen (blockHeight : UInt64)
  | upload
  | serializeSrd
  | serializeFile
  | sign
  | other (a : Act)

section
variable (sha256 : Bytes → Hash) (mem : Mem) (floatText : Bytes → Bytes → Bytes)
  (usable : Nat → Nat) (env : GenDataEnv)

/-- `none` is a call that fails, so that there is no hand-over. -/
def step (s : State τ) : Move → Option (State τ)
  | .gen blockHeight =>
    match s.phase, genLastReport sha256 mem env s.wl blockHeight with
    | .idle, some (.ok last, wl) => some ⟨wl, .waiting last⟩
    | _, _ => none
  | .upload =>
    match s.phase with
    | .waiting last =>
      match uploadLastReport env s.wl last with
      | (.success, wl) => some ⟨wl, .uploaded last⟩
      | _ => none
    | _ => none
  | .serializeSrd =>
    match s.phase with
    | .uploaded last => some { s with phase := .srdDone last (serializeSrd mem s.wl) }
    | _ => none
  | .serializeFile =>
    match s.phase with
    | .srdDone last srd =>
      match serializeFile floatText usable env.mallocFiles s.wl with
      | some (.success, files) => some { s with phase := .filesDone last srd files }
      | _ => none
    | _ => none
  | .sign =>
    match s.phase with
    | .filesDone last srd files =>
      match signUpgrade sha256 mem env s.wl ⟨last.height, last.hash, srd, files⟩ with
      | some (.success, wl, some data) => some ⟨wl, .done last data⟩
      | _ => none
    | _ => none
  | .other a => (perform sha256 mem s.wl a).map fun wl => { s with wl := wl }

end

/-! ### The report says what is counted -/

def figure (f : FileItem τ) : JSON × Int := (f.json.get fileHash, f.oldSize)

structure Says (sha256 : Bytes → Hash) (r : WorkReport τ) (srd : List Hash)
    (counted : List (JSON × Int)) : Prop where
  reserved : r.reserved = if srd.length = 0 then 0 else srdWorkload srd.length
  srdRoot : r.srdRoot =
    if srd.length = 0 then zeroHash else sgxSha256Msg sha256 (Workload.concatHashs srd)
  filesSize : r.filesSize = (counted.map Prod.snd).sum
  filesRoot : ∃ hs, counted.map Prod.fst = hs.map .hash ∧ r.filesRoot = rootOf sha256 hs

structure SameFigures (r r' : WorkReport τ) : Prop where
  filesSize : r'.filesSize = r.filesSize
  filesRoot : r'.filesRoot = r.filesRoot
  reserved : r'.reserved = r.reserved
  reservedRoot : r'.srdRoot = r.srdRoot

theorem map_hash_injective {hs hs' : List Hash} (h : hs.map JSON.hash = hs'.map .hash) : hs = hs' :=
  List.map_injective_iff.mpr (fun _ _ => JSON.hash.inj) h

theorem Says.same {sha256 : Bytes → Hash} {r r' : WorkReport τ} {srd : List Hash}
    {counted : List (JSON × Int)} (h : Says sha256 r srd counted) (h' : Says sha256 r' srd counted) :
    SameFigures r r' where
  filesSize := h'.filesSize.trans h.filesSize.symm
  filesRoot := by
    obtain ⟨hs, hhs, hroot⟩ := h.filesRoot
    obtain ⟨hs', hhs', hroot'⟩ := h'.filesRoot
    rw [hroot, hroot', map_hash_injective (hhs'.symm.trans hhs)]
  reserved := h'.reserved.trans h.reserved.symm
  reservedRoot := h'.srdRoot.trans h.srdRoot.symm

theorem figures_buildReport {sha256 : Bytes → Hash} {mem : Mem} {wl : Workload τ} {hash : Bytes}
    {height : UInt64} {scan : Scan τ} {hs : List Hash} {counted : List (FileItem τ)}
    (hitems : itemsAt scan.items scan.validIdx = counted)
    (hsize : scan.filesSize = (counted.map FileItem.oldSize).sum)
    (hhs : Workload.fileHashs (itemsAt scan.items scan.validIdx) = some hs) :
    Says sha256 (buildReport sha256 mem wl hash height scan hs)
      (Workload.srdHashs mem wl.srdPath2hashs) (counted.map figure) where
  reserved := rfl
  srdRoot := rfl
  filesSize := by
    rw [List.map_map]
    exact hsize
  filesRoot := by
    refine ⟨hs, ?_, rfl⟩
    rw [← Workload.map_fileHash hhs, hitems, List.map_map]
    rfl

/-! ### The two scans -/

def bothValid (f : FileItem τ) : Bool :=
  decide (f.current = statusValid) && decide (f.origin = statusValid)

theorem scanFiles_upgrading (files : List (FileItem τ)) :
    (scanFiles true files).items = files ∧
      (scanFiles true files).validIdx = files.findIdxs bothValid ∧
      (scanFiles true files).filesSize = ((files.filter bothValid).map FileItem.oldSize).sum := by
  induction files using List.reverseRecOn with
  | nil => exact ⟨rfl, rfl, rfl⟩
  | append_singleton files f ih =>
    obtain ⟨hitems, hidx, hsize⟩ := ih
    have hnew : files.length ∉ files.findIdxs bothValid := not_mem_findIdxs_length _ _
    have hstep : scanFiles true (files ++ [f]) = scanFile true (scanFiles true files) f := by
      rw [scanFiles, List.foldl_append]
      rfl
    rw [hstep, List.findIdxs_append, List.filter_append, List.findIdxs_singleton, Nat.zero_add]
    by_cases hv : f.current = statusValid ∧ f.origin = statusValid
    · have hb : bothValid f = true := by simp [bothValid, hv.1, hv.2]
      simp [scanFile, hv, hitems, hidx, hsize, hb, insertIdx, hnew]
    · have hb : bothValid f = false := by
        simpa [bothValid] using hv
      simp [scanFile, hv, hitems, hidx, hsize, hb]

theorem bothValid_kept (files : List (FileItem τ)) :
    (eraseGone files).filter bothValid = files.filter bothValid := by
  rw [eraseGone, List.filter_filter]
  refine List.filter_congr fun f _ => ?_
  by_cases hb : bothValid f = true
  · have hv : f.current = statusValid := by
      simp only [bothValid, Bool.and_eq_true, decide_eq_true_eq] at hb
      exact hb.1
    have hgone : isGone f = false := by
      by_contra hne
      rcases isGone_current (by simpa using hne) with hcur | hcur
      · rw [hv] at hcur
        cases hcur
      · rw [hv] at hcur
        cases hcur
    simp [hb, hgone]
  · simp [hb]

/-- Every entry the chain knows as valid and that no longer is makes it into the lists of the
report. -/
def NoneLeftOut (files : List (FileItem τ)) : Prop :=
  ∀ i f, files[i]? = some f → f.origin = statusValid → f.current ≠ statusValid →
    isPending f = true ∧ (files.take i).countP isPending < workreportFileLimit

theorem rows_settled {files : List (FileItem τ)} (hst : ∀ f ∈ files, f.HasStatus) (acc : Nat)
    (h : ∀ i f, files[i]? = some f → f.origin = statusValid → f.current ≠ statusValid →
      isPending f = true ∧ acc + (files.take i).countP isPending < workreportFileLimit) :
    ∀ r ∈ rowsFrom acc files, r.kind = .plain → r.item.origin = statusValid →
      r.item.current = statusValid := by
  induction files generalizing acc with
  | nil => simp [rowsFrom]
  | cons f files ih =>
    have hf := hst f List.mem_cons_self
    intro r hr hkind horigin
    rw [rowsFrom] at hr
    rcases List.mem_cons.mp hr with rfl | hr
    · by_contra hcur
      rw [markWaiting_current hf] at hcur
      rw [markWaiting_origin hf] at horigin
      obtain ⟨hp, hlt⟩ := h 0 f rfl horigin hcur
      have hq : acc < workreportFileLimit ∧ isPending f = true := ⟨by simpa using hlt, hp⟩
      simp only [kindOf, if_pos hq] at hkind
      split_ifs at hkind
    · refine ih (fun g hg => hst g (List.mem_cons_of_mem _ hg)) _ (fun i g hg ho hc => ?_) r hr
        hkind horigin
      obtain ⟨hp, hlt⟩ := h (i + 1) g (by simpa using hg) ho hc
      refine ⟨hp, ?_⟩
      rw [List.take_succ_cons, List.countP_cons] at hlt
      split_ifs with hlisted
      · have hpf : isPending f = true := by
          by_contra hnp
          simp [Row.listed, kindOf, hnp] at hlisted
        rw [if_pos hpf] at hlt
        omega
      · omega

/-! ### Following the entries of the report -/

/-- Row by row an entry that `P` relates to it, and behind the rows entries with `Q`. -/
def Tracked (P : Row τ → FileItem τ → Prop) (Q : FileItem τ → Prop) :
    List (Row τ) → List (FileItem τ) → Prop
  | [], fs => ∀ f ∈ fs, Q f
  | _ :: _, [] => False
  | r :: rows, f :: fs => P r f ∧ Tracked P Q rows fs

section
variable {P P' : Row τ → FileItem τ → Prop} {Q : FileItem τ → Prop} {rows : List (Row τ)}
  {fs : List (FileItem τ)}

theorem Tracked.append (h : Tracked P Q rows fs) {more : List (FileItem τ)}
    (hm : ∀ f ∈ more, Q f) : Tracked P Q rows (fs ++ more) := by
  induction rows generalizing fs with
  | nil =>
    intro f hf
    rcases List.mem_append.mp hf with hf | hf
    · exact h f hf
    · exact hm f hf
  | cons r rows ih =>
    cases fs with
    | nil => exact h.elim
    | cons f fs => exact ⟨h.1, ih h.2⟩

theorem Tracked.modify (h : Tracked P Q rows fs) {i : Nat} {f : FileItem τ} (hi : fs[i]? = some f)
    {g : FileItem τ → FileItem τ} (hP : ∀ r, rows[i]? = some r → P r f → P r (g f))
    (hQ : Q f → Q (g f)) : Tracked P Q rows (fs.modify i g) := by
  induction rows generalizing fs i with
  | nil =>
    intro e he
    obtain ⟨k, hk⟩ := List.mem_iff_getElem?.mp he
    rw [List.getElem?_modify] at hk
    obtain ⟨e', he', hke⟩ := Option.map_eq_some_iff.mp hk
    have hmem := h e' (List.mem_of_getElem? he')
    split_ifs at hke with hik
    · subst hik
      obtain rfl : f = e' := Option.some.inj (hi.symm.trans he')
      rw [← hke]
      exact hQ hmem
    · rw [← hke]
      exact hmem
  | cons r rows ih =>
    cases fs with
    | nil => exact h.elim
    | cons e fs =>
      cases i with
      | zero =>
        obtain rfl : e = f := by simpa using hi
        rw [List.modify_zero_cons]
        exact ⟨hP r rfl h.1, h.2⟩
      | succ i =>
        rw [List.modify_succ_cons]
        exact ⟨h.1, ih h.2 (by simpa using hi) fun r hr => hP r (by simpa using hr)⟩

theorem tracked_items (h : ∀ r ∈ rows, P r r.item) : Tracked P Q rows (rows.map Row.item) := by
  induction rows with
  | nil => simp [Tracked]
  | cons r rows ih =>
    exact ⟨h r List.mem_cons_self, ih fun r hr => h r (List.mem_cons_of_mem _ hr)⟩

theorem Tracked.figures (h : Tracked P Q rows fs)
    (hP : ∀ r f, P r f → bothValid f = r.counted ∧ figure f = figure r.item)
    (hQ : ∀ f, Q f → bothValid f = false) :
    (fs.filter bothValid).map figure = ((rows.filter Row.counted).map Row.item).map figure := by
  induction rows generalizing fs with
  | nil =>
    rw [List.filter_eq_nil_iff.mpr fun f hf => by simp [hQ f (h f hf)]]
    rfl
  | cons r rows ih =>
    cases fs with
    | nil => exact h.elim
    | cons f fs =>
      obtain ⟨hb, hfig⟩ := hP r f h.1
      rw [List.filter_cons, List.filter_cons, hb]
      split_ifs
      · simp only [List.map_cons, hfig, ih h.2]
      · exact ih h.2

theorem foldl_ackFile_succ (idxs : List Nat) (f : FileItem τ) (fs : List (FileItem τ)) :
    (idxs.map (· + 1)).foldl Workload.ackFile (f :: fs) = f :: idxs.foldl Workload.ackFile fs := by
  induction idxs generalizing fs with
  | nil => rfl
  | cons i idxs ih =>
    rw [List.map_cons, List.foldl_cons, List.foldl_cons, Workload.ackFile, List.modify_succ_cons]
    exact ih _

theorem Tracked.ack (h : Tracked P Q rows fs)
    (hplain : ∀ r ∈ rows, ∀ f, r.listed = false → P r f → P' r f)
    (hlisted : ∀ r ∈ rows, ∀ f, r.listed = true → P r f →
      P' r (f.setStatusChar originStatus f.waiting)) :
    Tracked P' Q rows ((rows.findIdxs Row.listed).foldl Workload.ackFile fs) := by
  induction rows generalizing fs with
  | nil => simpa [Tracked] using h
  | cons r rows ih =>
    cases fs with
    | nil => exact h.elim
    | cons f fs =>
      have htail := ih h.2 (fun r hr => hplain r (List.mem_cons_of_mem _ hr))
        fun r hr => hlisted r (List.mem_cons_of_mem _ hr)
      rw [List.findIdxs_cons, List.findIdxs_start]
      split_ifs with hl
      · rw [List.foldl_cons, Workload.ackFile, List.modify_zero_cons, foldl_ackFile_succ]
        exact ⟨hlisted r List.mem_cons_self f hl h.1, htail⟩
      · rw [foldl_ackFile_succ]
        exact ⟨hplain r List.mem_cons_self f (by simpa using hl) h.1, htail⟩

end

structure Waits (r : Row τ) (f : FileItem τ) : Prop where
  figure : figure f = figure r.item
  status : f.HasStatus
  waiting : f.waiting = r.item.current
  origin : f.origin = r.item.origin
  valid : r.counted = true → f.current = statusValid

structure Acked (r : Row τ) (f : FileItem τ) : Prop where
  figure : figure f = figure r.item
  status : f.HasStatus
  origin : f.origin = statusValid ↔ r.counted = true
  valid : r.counted = true → f.current = statusValid

def Unseen (f : FileItem τ) : Prop := f.HasStatus ∧ f.origin ≠ statusValid

theorem Acked.bothValid {r : Row τ} {f : FileItem τ} (h : Acked r f) :
    bothValid f = r.counted ∧ UpgradeReport.figure f = UpgradeReport.figure r.item := by
  refine ⟨?_, h.figure⟩
  rw [Bool.eq_iff_iff, UpgradeReport.bothValid, Bool.and_eq_true, decide_eq_true_eq,
    decide_eq_true_eq, h.origin]
  exact ⟨fun hb => hb.2, fun hc => ⟨h.valid hc, hc⟩⟩

theorem Unseen.bothValid {f : FileItem τ} (h : Unseen f) : bothValid f = false := by
  simp [UpgradeReport.bothValid, h.2]

theorem counted_of_listed {r : Row τ} (hok : RowOk r) (hl : r.listed = true) :
    r.counted = true ↔ r.item.current = statusValid := by
  have hne : r.kind ≠ .plain := by simpa [Row.listed] using hl
  rcases hkind : r.kind with _ | _ | _
  · exact absurd hkind hne
  · simp [Row.counted, hkind, (hok.added hkind).1]
  · simp [Row.counted, hkind, (hok.deleted hkind).1]

theorem counted_of_plain {r : Row τ} (hl : r.listed = false) :
    r.counted = true ↔ r.item.origin = statusValid := by
  have hkind : r.kind = .plain := by simpa [Row.listed] using hl
  simp [Row.counted, hkind]

theorem Waits.known {r : Row τ} {f : FileItem τ} (h : Waits r f) (hok : RowOk r)
    (hc : r.counted = true) : (if r.listed = true then f.waiting else f.origin) = statusValid := by
  split_ifs with hl
  · rw [h.waiting]
    exact (counted_of_listed hok hl).mp hc
  · rw [h.origin]
    exact (counted_of_plain (by simpa using hl)).mp hc

theorem figure_setStatusChar (f : FileItem τ) (i : Nat) (c : UInt8) :
    figure (f.setStatusChar i c) = figure f := by
  simp [figure]

structure Checked (counted : Prop) (f g : FileItem τ) : Prop where
  figure : figure g = figure f
  status : g.HasStatus
  waiting : g.waiting = f.waiting
  origin : g.origin = f.origin
  valid : counted → f.current = statusValid → g.current = statusValid

theorem applyVerdict_checked {counted : Prop} {v : Validator.Verdict} {f : FileItem τ}
    (hf : f.HasStatus) (hv : v = .failed → f.current = statusValid → ¬ counted) :
    Checked counted f (Validator.applyVerdict v f) := by
  have hsame : Checked counted f f := ⟨rfl, hf, rfl, rfl, fun _ => id⟩
  unfold Validator.applyVerdict
  split
  · split_ifs with hc
    · exact ⟨figure_setStatusChar f _ _, hf.set (by decide) _, hf.char_ne (by decide) (by decide) _,
        hf.char_ne (by decide) (by decide) _, fun hcounted => absurd hcounted (hv rfl hc)⟩
    · exact hsame
  · split_ifs
    · exact ⟨figure_setStatusChar f _ _, hf.set (by decide) _, hf.char_ne (by decide) (by decide) _,
        hf.char_ne (by decide) (by decide) _, fun _ _ => hf.char_self (by decide) _⟩
    · exact hsame
  · exact hsame

theorem Waits.checked {r : Row τ} {f g : FileItem τ} (h : Waits r f)
    (hc : Checked (r.counted = true) f g) : Waits r g where
  figure := hc.figure.trans h.figure
  status := hc.status
  waiting := hc.waiting.trans h.waiting
  origin := hc.origin.trans h.origin
  valid := fun hv => hc.valid hv (h.valid hv)

theorem Acked.checked {r : Row τ} {f g : FileItem τ} (h : Acked r f)
    (hc : Checked (r.counted = true) f g) : Acked r g where
  figure := hc.figure.trans h.figure
  status := hc.status
  origin := by
    rw [hc.origin]
    exact h.origin
  valid := fun hv => hc.valid hv (h.valid hv)

theorem Unseen.checked {counted : Prop} {f g : FileItem τ} (h : Unseen f)
    (hc : Checked counted f g) : Unseen g :=
  ⟨hc.status, by rw [hc.origin]; exact h.2⟩

end CrustSworker.UpgradeReport

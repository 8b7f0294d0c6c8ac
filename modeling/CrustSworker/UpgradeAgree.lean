import CrustSworker.UpgradeReport

/-!
# The two reports agree

The invariant of the hand-over machine, phase by phase, and the report that the new enclave
makes of the document. What is carried from the first report to the second are the G hashes
and, row by row, the entries that were counted. The main theorem is about every interleaving
in which no counted file is lost, no G hash comes or goes, and the limit leaves no lost or
deleted file out of the old report: then both reports show the same figures.
-/

namespace CrustSworker.UpgradeReport

open Report Upgrade Metadata JsonParse OrderedMap

variable {τ : Type}

/-! ### What an interleaved step does to the lists -/

theorem settleChanged_lists (wl : Workload τ) (changed : List (Nat × Bool)) :
    (Validator.settleChanged wl changed).checkedFiles = wl.checkedFiles ∧
      (Validator.settleChanged wl changed).newFiles = wl.newFiles ∧
      (Validator.settleChanged wl changed).reportedFilesIdx = wl.reportedFilesIdx ∧
      (Validator.settleChanged wl changed).srdPath2hashs = wl.srdPath2hashs := by
  obtain ⟨info, h⟩ := Validator.settleChanged_eq wl changed
  rw [h]
  exact ⟨rfl, rfl, rfl, rfl⟩

/-- All that an interleaved step can do to the files. -/
inductive FilesChange (wl wl' : Workload τ) (keeps : Prop) : Prop where
  | same (hc : wl'.checkedFiles = wl.checkedFiles) (hn : wl'.newFiles = wl.newFiles)
  | merged (hc : wl'.checkedFiles = wl.checkedFiles ++ wl.newFiles) (hn : wl'.newFiles = [])
  | checked (i : Nat) (f : FileItem τ) (v : Validator.Verdict) (hi : wl.checkedFiles[i]? = some f)
      (hv : keeps → v = .failed → f.current = statusValid → knownStatus wl i f ≠ statusValid)
      (hc : wl'.checkedFiles = wl.checkedFiles.modify i (Validator.applyVerdict v))
      (hn : wl'.newFiles = wl.newFiles)

section
variable {sha256 : Bytes → Hash} {mem : Mem} {wl wl' : Workload τ} {a : Act}

theorem perform_check {env : Validator.CheckEnv} {i : Nat}
    (h : perform sha256 mem wl (.check env i) = some wl') :
    FilesChange wl wl' (KeepsFiles sha256 mem wl (.check env i)) ∧
      wl'.reportedFilesIdx = wl.reportedFilesIdx ∧ wl'.srdPath2hashs = wl.srdPath2hashs := by
  obtain ⟨p, hp, rfl⟩ := Option.map_eq_some_iff.mp h
  unfold Validator.checkFile at hp
  dsimp only at hp
  split at hp
  · cases hp
    exact ⟨.same rfl rfl, rfl, rfl⟩
  rename_i f hf
  split at hp
  · cases hp
  · cases hp
    exact ⟨.same rfl rfl, rfl, rfl⟩
  · rename_i v _ hjudge
    cases hp
    refine ⟨.checked i f v hf (fun hk hv hcur => hk f hf ?_ hcur) rfl rfl, rfl, rfl⟩
    rw [hjudge, hv]

theorem perform_files (h : perform sha256 mem wl a = some wl') :
    FilesChange wl wl' (KeepsFiles sha256 mem wl a) ∧
      wl'.reportedFilesIdx = wl.reportedFilesIdx := by
  cases a with
  | merge =>
    cases h
    exact ⟨.merged rfl rfl, rfl⟩
  | initFailed =>
    cases h
    unfold Validator.initFailed
    split_ifs
    · exact ⟨.same rfl rfl, rfl⟩
    · exact ⟨.same rfl rfl, rfl⟩
  | check env i => exact ⟨(perform_check h).1, (perform_check h).2.1⟩
  | settle changed =>
    cases h
    obtain ⟨hc, hn, hidx, -⟩ := settleChanged_lists wl changed
    exact ⟨.same hc hn, hidx⟩
  | srdIncrease env path =>
    cases h
    split_ifs
    · exact ⟨.same rfl rfl, rfl⟩
    · unfold Srd.srdIncrease
      split
      · exact ⟨.same rfl rfl, rfl⟩
      · exact ⟨.same rfl rfl, rfl⟩
  | srdDecrease answer change del =>
    obtain ⟨r, hr, rfl⟩ := Option.map_eq_some_iff.mp h
    unfold Srd.srdDecrease at hr
    dsimp only at hr
    split_ifs at hr
    · cases hr
      exact ⟨.same rfl rfl, rfl⟩
    · obtain ⟨q, -, rfl⟩ := Option.map_eq_some_iff.mp hr
      exact ⟨.same rfl rfl, rfl⟩
  | srdUpdateMetadata answer hashs =>
    simp only [perform, Srd.srdUpdateMetadata] at h
    split at h
    · cases h
    · cases h
      exact ⟨.same rfl rfl, rfl⟩

end

/-! ### What it does to the G hashes -/

theorem srdHashs_cons (mem : Mem) (p : Bytes × List Bytes) (m : Srd.PathMap) :
    Workload.srdHashs mem (p :: m) =
      (p.2.map fun g => mem.read g 32) ++ Workload.srdHashs mem m := rfl

theorem srdHashs_lookup (mem : Mem) {m : Srd.PathMap} (hm : Sorted ltBytes m) (p : Bytes) :
    Workload.srdHashs mem (insertKey ltBytes p (Srd.hashsOf m p) m) = Workload.srdHashs mem m := by
  induction m with
  | nil => rfl
  | cons q m ih =>
    obtain ⟨hhead, htail⟩ := List.pairwise_cons.mp hm
    by_cases hp : p = q.1
    · have hfind : Srd.hashsOf (q :: m) p = q.2 := by
        rw [Srd.hashsOf, findKey, if_pos hp]
        rfl
      rw [hfind, insertKey, if_pos hp]
      rfl
    by_cases hlt : ltBytes p q.1 = true
    · have hnone : Srd.hashsOf (q :: m) p = [] := by
        rw [Srd.hashsOf, findKey_none]
        · rfl
        intro e he heq
        have hle : ltBytes q.1 p = true ∨ q.1 = p := by
          rcases List.mem_cons.mp he with rfl | he
          · exact .inr heq
          · exact .inl (heq ▸ hhead e he)
        rcases hle with h | h
        · have := isOrder_ltBytes.trans _ _ _ hlt h
          rw [isOrder_ltBytes.irrefl] at this
          cases this
        · exact hp h.symm
      rw [hnone, insertKey, if_neg hp, if_pos hlt, srdHashs_cons]
      rfl
    · have hrest : Srd.hashsOf (q :: m) p = Srd.hashsOf m p := by
        rw [Srd.hashsOf, findKey, if_neg hp]
        rfl
      rw [hrest, insertKey, if_neg hp, if_neg hlt, srdHashs_cons, srdHashs_cons, ih htail]

structure SameSrd (mem : Mem) (m m' : Srd.PathMap) : Prop where
  sorted : Sorted ltBytes m'
  hashs : Workload.srdHashs mem m' = Workload.srdHashs mem m

theorem updatePaths_same {mem : Mem} {answer : Nat → CrustStatus} (fields : List (Bytes × JSON))
    {u : Srd.Update} (hs : Sorted ltBytes u.m)
    (h : ∀ entry ∈ fields, sizeT entry.2.toInt = 0 ∨ Srd.hashsOf u.m entry.1 = []) :
    SameSrd mem u.m (fields.foldl (Srd.updatePath answer) u).m := by
  induction fields generalizing u with
  | nil => exact ⟨hs, rfl⟩
  | cons entry fields ih =>
    have hnum : Srd.realDeletedNum u.m entry.1 entry.2 = 0 := by
      unfold Srd.realDeletedNum
      rcases h entry List.mem_cons_self with h | h
      · rw [h, Nat.zero_min]
      · rw [h]
        exact Nat.min_zero _
    have hstep : Srd.updatePath answer u entry =
        { u with m := insertKey ltBytes entry.1 (Srd.hashsOf u.m entry.1) u.m } := by
      rw [Srd.updatePath, hnum]
      rfl
    rw [List.foldl_cons, hstep]
    have hrest := ih (u := { u with m := insertKey ltBytes entry.1 (Srd.hashsOf u.m entry.1) u.m })
      (hs.insertKey isOrder_ltBytes _ _) fun e he => ?_
    · exact ⟨hrest.sorted, hrest.hashs.trans (srdHashs_lookup mem hs entry.1)⟩
    · dsimp only
      rw [SrdInfo.hashsOf_insertKey]
      split_ifs with heq
      · rw [← heq]
        exact h e (List.mem_cons_of_mem _ he)
      · exact h e (List.mem_cons_of_mem _ he)

theorem decrease_same {mem : Mem} {answer : Nat → CrustStatus} {change : Int} {del : Srd.DelIndex}
    {wl : Workload τ} {r : Nat × Workload τ} (h : Srd.srdDecrease mem answer wl change del = some r)
    (hk : (change ≤ 0 ∧ del = []) ∨ (0 < change ∧ Srd.srdTotal wl.srdPath2hashs = 0)) :
    r.2.srdPath2hashs = wl.srdPath2hashs := by
  unfold Srd.srdDecrease at h
  dsimp only at h
  split_ifs at h with hz
  · cases h
    rfl
  rcases hk with ⟨hle, rfl⟩ | ⟨hpos, hzero⟩
  · have hneg : ¬ ((0 : Nat) : Int) < min change (Srd.srdTotal wl.srdPath2hashs) := by omega
    have hloop : Srd.chooseLoop wl.srdPath2hashs (min change (Srd.srdTotal wl.srdPath2hashs))
        (Srd.srdTotal wl.srdPath2hashs + 1) 1 [] 0 = [] := by
      rw [Srd.chooseLoop, if_neg hneg]
    simp only [List.map_nil, List.sum_nil, hloop, Srd.eraseChosen, Option.map_some,
      Option.some.injEq] at h
    rw [← h]
  · rw [hzero] at hz
    omega

section
variable {sha256 : Bytes → Hash} {mem : Mem} {wl wl' : Workload τ} {a : Act}

theorem perform_srd (h : perform sha256 mem wl a = some wl') (hk : KeepsSrd sha256 mem wl a)
    (hs : Sorted ltBytes wl.srdPath2hashs) :
    SameSrd mem wl.srdPath2hashs wl'.srdPath2hashs := by
  have hsame : wl'.srdPath2hashs = wl.srdPath2hashs → SameSrd mem wl.srdPath2hashs wl'.srdPath2hashs := by
    intro heq
    rw [heq]
    exact ⟨hs, rfl⟩
  cases a with
  | merge =>
    cases h
    exact hsame rfl
  | initFailed =>
    cases h
    refine hsame ?_
    unfold Validator.initFailed
    split_ifs
    · rfl
    · rfl
  | check env i => exact hsame (perform_check h).2.2
  | settle changed =>
    cases h
    exact hsame (settleChanged_lists wl changed).2.2.2
  | srdIncrease env path =>
    cases h
    refine hsame ?_
    split_ifs with hp
    · rfl
    · rw [Srd.srdIncrease, hk.resolve_left hp]
  | srdDecrease answer change del =>
    obtain ⟨r, hr, rfl⟩ := Option.map_eq_some_iff.mp h
    exact hsame (decrease_same hr hk)
  | srdUpdateMetadata answer hashs =>
    simp only [perform, Srd.srdUpdateMetadata] at h
    split at h
    · cases h
    · rename_i doc hdoc
      cases h
      exact updatePaths_same (u := ⟨wl.srdPath2hashs, wl.srdInfoJson, 0⟩) doc.objectRange hs
        (hk doc hdoc)

end

/-! ### The invariant -/

structure Lists (wl : Workload τ) : Prop where
  checked : ∀ f ∈ wl.checkedFiles, IsEntry f.json
  new : ∀ f ∈ wl.newFiles, IsEntry f.json
  fresh : ∀ f ∈ wl.newFiles, f.origin ≠ statusValid

theorem Lists.unseen {wl : Workload τ} (h : Lists wl) : ∀ f ∈ wl.newFiles, Unseen f :=
  fun f hf => ⟨(h.new f hf).hasStatus, h.fresh f hf⟩

structure Ready (wl : Workload τ) : Prop extends Lists wl where
  sorted : Sorted ltBytes wl.srdPath2hashs
  noneLeftOut : NoneLeftOut (eraseGone wl.checkedFiles)

def PlainPaths (m : Srd.PathMap) : Prop := ∀ p ∈ m, NoEscape p.1 ∧ Untagged p.1

def rowsOf (wl : Workload τ) : List (Row τ) := rowsFrom 0 (eraseGone wl.checkedFiles)

def countedOf (rows : List (Row τ)) : List (JSON × Int) :=
  ((rows.filter Row.counted).map Row.item).map figure

/-- The height and the hash of the report are read back as they are written. -/
structure PlainTarget (last : LastReport τ) : Prop where
  height : last.height.toNat < 2 ^ 63
  hash : NoEscape last.hash ∧ Untagged last.hash

section
variable (sha256 : Bytes → Hash) (mem : Mem)

/-- What the report says stands in the map and in the counted rows. -/
structure Reported (last : LastReport τ) (srd : Srd.PathMap) (rows : List (Row τ)) : Prop where
  target : PlainTarget last
  sorted : Sorted ltBytes srd
  figures : Says sha256 last.report (Workload.srdHashs mem srd) (countedOf rows)

structure Waiting (wl : Workload τ) (last : LastReport τ) (rows : List (Row τ)) : Prop where
  reported : Reported sha256 mem last wl.srdPath2hashs rows
  lists : Lists wl
  ok : ∀ r ∈ rows, RowOk r
  idx : wl.reportedFilesIdx = rows.findIdxs Row.listed
  tracked : Tracked Waits Unseen rows wl.checkedFiles

/-- Behind the upload; `srd` is the map that is, or was, serialized. -/
structure Uploaded (wl : Workload τ) (last : LastReport τ) (srd : Srd.PathMap)
    (rows : List (Row τ)) : Prop where
  reported : Reported sha256 mem last srd rows
  lists : Lists wl
  idx : wl.reportedFilesIdx = []
  tracked : Tracked Acked Unseen rows wl.checkedFiles

def Inv (floatText : Bytes → Bytes → Bytes) (s : State τ) : Prop :=
  match s.phase with
  | .idle => True
  | .waiting last => ∃ rows, Waiting sha256 mem s.wl last rows
  | .uploaded last => ∃ rows, Uploaded sha256 mem s.wl last s.wl.srdPath2hashs rows
  | .srdDone last srd =>
    ∃ m rows, PlainPaths m ∧ srd = srdText mem m ∧ Uploaded sha256 mem s.wl last m rows
  | .filesDone last srd files =>
    ∃ m wl rows, PlainPaths m ∧ srd = srdText mem m ∧ files = filesText floatText wl.checkedFiles ∧
      Uploaded sha256 mem wl last m rows
  | .done last data =>
    ∃ d : Handed τ, d.Plain ∧ data = d.text mem floatText ∧
      Says sha256 last.report (Workload.srdHashs mem d.srd) ((d.files.filter bothValid).map figure)

def Quiet (s : State τ) : Move → Prop
  | .gen blockHeight => Ready s.wl ∧ blockHeight.toNat < 2 ^ 63
  | .serializeSrd => PlainPaths s.wl.srdPath2hashs
  | .other a =>
    match s.phase with
    | .waiting _ | .uploaded _ => KeepsSrd sha256 mem s.wl a ∧ KeepsFiles sha256 mem s.wl a
    | .srdDone _ _ => KeepsFiles sha256 mem s.wl a
    | _ => True
  | _ => True

end

section
variable {sha256 : Bytes → Hash} {mem : Mem} {wl wl' : Workload τ} {a : Act}

theorem isEntry_applyVerdict {f : FileItem τ} (h : IsEntry f.json) (v : Validator.Verdict) :
    IsEntry (Validator.applyVerdict v f).json := by
  unfold Validator.applyVerdict
  split
  · split_ifs
    · exact h.setStatusChar (by decide) (by decide)
    · exact h
  · split_ifs
    · exact h.setStatusChar (by decide) (by decide)
    · exact h
  · exact h

theorem Lists.perform (hl : Lists wl) (h : perform sha256 mem wl a = some wl') : Lists wl' := by
  rcases (perform_files h).1 with ⟨hc, hn⟩ | ⟨hc, hn⟩ | ⟨i, f, v, -, -, hc, hn⟩
  · exact ⟨hc ▸ hl.checked, hn ▸ hl.new, hn ▸ hl.fresh⟩
  · refine ⟨?_, by simp [hn], by simp [hn]⟩
    rw [hc]
    intro f hf
    rcases List.mem_append.mp hf with hf | hf
    · exact hl.checked f hf
    · exact hl.new f hf
  · refine ⟨?_, hn ▸ hl.new, hn ▸ hl.fresh⟩
    rw [hc]
    exact isEntry_modify hl.checked i fun f hf => isEntry_applyVerdict hf v

theorem Tracked.perform {P : Row τ → FileItem τ → Prop} {rows : List (Row τ)}
    (ht : Tracked P Unseen rows wl.checkedFiles) (hl : Lists wl)
    (hP : ∀ r f g, P r f → Checked (r.counted = true) f g → P r g)
    (hknown : ∀ (i : Nat) r f, rows[i]? = some r → P r f → r.counted = true →
      knownStatus wl i f = statusValid)
    (h : perform sha256 mem wl a = some wl') (hk : KeepsFiles sha256 mem wl a) :
    Tracked P Unseen rows wl'.checkedFiles := by
  rcases (perform_files h).1 with ⟨hc, -⟩ | ⟨hc, -⟩ | ⟨i, f, v, hi, hv, hc, -⟩
  · rw [hc]
    exact ht
  · rw [hc]
    exact ht.append hl.unseen
  · have hstatus := (hl.checked f (List.mem_of_getElem? hi)).hasStatus
    rw [hc]
    refine ht.modify hi (fun r hr hf => ?_) fun hf => ?_
    · exact hP r _ _ hf (applyVerdict_checked hstatus fun hfail hcur hcounted =>
        hv hk hfail hcur (hknown i r f hr hf hcounted))
    · exact hf.checked (applyVerdict_checked hstatus fun _ _ hfalse => hfalse)

theorem Reported.sameSrd {last : LastReport τ} {srd srd' : Srd.PathMap} {rows : List (Row τ)}
    (h : Reported sha256 mem last srd rows) (hs : SameSrd mem srd srd') :
    Reported sha256 mem last srd' rows where
  target := h.target
  sorted := hs.sorted
  figures := by
    rw [hs.hashs]
    exact h.figures

/-! ### The moves -/

theorem Waiting.perform {last : LastReport τ} {rows : List (Row τ)}
    (hw : Waiting sha256 mem wl last rows) (h : perform sha256 mem wl a = some wl')
    (hsrd : KeepsSrd sha256 mem wl a) (hfiles : KeepsFiles sha256 mem wl a) :
    Waiting sha256 mem wl' last rows where
  reported := hw.reported.sameSrd (perform_srd h hsrd hw.reported.sorted)
  lists := hw.lists.perform h
  ok := hw.ok
  idx := (perform_files h).2.trans hw.idx
  tracked := by
    refine hw.tracked.perform hw.lists (fun _ _ _ => Waits.checked) (fun i r f hr hf hc => ?_) h
      hfiles
    obtain ⟨hlt, hri⟩ := List.getElem?_eq_some_iff.mp hr
    have hidx : i ∈ wl.reportedFilesIdx ↔ r.listed = true := by
      rw [hw.idx, List.mem_findIdxs_iff_pos_getElem hlt, hri]
    simp only [knownStatus, hidx]
    exact hf.known (hw.ok r (List.mem_of_getElem? hr)) hc

theorem Uploaded.perform {last : LastReport τ} {srd srd' : Srd.PathMap} {rows : List (Row τ)}
    (hu : Uploaded sha256 mem wl last srd rows) (hs : SameSrd mem srd srd')
    (h : perform sha256 mem wl a = some wl') (hfiles : KeepsFiles sha256 mem wl a) :
    Uploaded sha256 mem wl' last srd' rows where
  reported := hu.reported.sameSrd hs
  lists := hu.lists.perform h
  idx := (perform_files h).2.trans hu.idx
  tracked := by
    refine hu.tracked.perform hu.lists (fun _ _ _ => Acked.checked) (fun i r f hr hf hc => ?_) h
      hfiles
    rw [knownStatus, hu.idx, if_neg List.not_mem_nil]
    exact hf.origin.mpr hc

variable {env : GenDataEnv} {blockHeight : UInt64}

theorem waiting_of_gen (hr : Ready wl) (hheight : blockHeight.toNat < 2 ^ 63)
    (hhash : ∀ h, NoEscape (env.blockHash h).2.val ∧ Untagged (env.blockHash h).2.val)
    {last : LastReport τ}
    (h : genLastReport sha256 mem env wl blockHeight = some (.ok last, wl')) :
    Waiting sha256 mem wl' last (rowsOf wl) := by
  obtain ⟨htarget, hgen⟩ := genLastReport_ok h
  obtain ⟨hle, b, hb, hhashEq⟩ := reportTarget_ok htarget
  obtain ⟨hwl, -, -, hs, hhs, hreport⟩ := (genWorkReport_signed hgen).report _ _ rfl
  have hkept : ∀ f ∈ eraseGone wl.checkedFiles, f.HasStatus :=
    fun f hf => (hr.checked f (List.mem_of_mem_filter hf)).hasStatus
  have hscan : scanFiles false (eraseGone wl.checkedFiles) = toScan (rowsOf wl) := scanFiles_eq hkept
  have hok := rowsFrom_ok hkept 0
  dsimp only at hwl
  rw [hscan] at hwl hhs hreport
  subst hwl
  refine ⟨⟨⟨?_, ?_⟩, hr.sorted, ?_⟩, ⟨?_, hr.new, hr.fresh⟩, hok, rfl, ?_⟩
  · rw [UInt64.le_iff_toNat_le] at hle
    exact lt_of_le_of_lt hle hheight
  · have hplain := hhash last.height
    rw [hb] at hplain
    rw [hhashEq]
    exact hplain
  · rw [hreport]
    refine figures_buildReport (itemsAt_toScan _) ?_ hhs
    simp only [toScan, Report.sizeOf, List.map_map]
    rfl
  · exact (genLastReport_lists hr.checked h).2.2
  · have hsettled := rows_settled hkept 0 fun i f hi ho hc => by
      simpa using hr.noneLeftOut i f hi ho hc
    refine tracked_items fun r hr => ⟨rfl, (hok r hr).status, (hok r hr).waiting, rfl, fun hc => ?_⟩
    by_cases hl : r.listed = true
    · exact (counted_of_listed (hok r hr) hl).mp hc
    · have hplain : r.listed = false := by simpa using hl
      exact hsettled r hr (by simpa [Row.listed] using hplain) ((counted_of_plain hplain).mp hc)

theorem acked_of_plain {r : Row τ} {f : FileItem τ} (hl : r.listed = false) (hw : Waits r f) :
    Acked r f := by
  refine ⟨hw.figure, hw.status, ?_, hw.valid⟩
  rw [hw.origin, counted_of_plain hl]

theorem acked_of_listed {r : Row τ} (hok : RowOk r) {f : FileItem τ} (hl : r.listed = true)
    (hw : Waits r f) : Acked r (f.setStatusChar originStatus f.waiting) := by
  have horigin : (f.setStatusChar originStatus f.waiting).origin = r.item.current :=
    (hw.status.char_self (by decide) _).trans hw.waiting
  have hcurrent : (f.setStatusChar originStatus f.waiting).current = f.current :=
    hw.status.char_ne (by decide) (by decide) _
  refine ⟨(figure_setStatusChar f _ _).trans hw.figure, hw.status.set (by decide) _, ?_,
    fun hc => ?_⟩
  · rw [horigin, counted_of_listed hok hl]
  · rw [hcurrent]
    exact hw.valid hc

theorem Waiting.acked {last : LastReport τ} {rows : List (Row τ)}
    (hw : Waiting sha256 mem wl last rows) :
    Uploaded sha256 mem wl.handleReportResult last wl.srdPath2hashs rows where
  reported := hw.reported
  lists := ⟨isEntry_acked _ hw.lists.checked, hw.lists.new, hw.lists.fresh⟩
  idx := rfl
  tracked := by
    have hack := hw.tracked.ack (fun _ _ _ hl hf => acked_of_plain hl hf)
      fun r hr f hl hf => acked_of_listed (hw.ok r hr) hl hf
    rw [← hw.idx] at hack
    exact hack

theorem Uploaded.handed {last : LastReport τ} {srd : Srd.PathMap} {rows : List (Row τ)}
    (hu : Uploaded sha256 mem wl last srd rows) (hpaths : PlainPaths srd) (key : PubKey)
    (srdRoot filesRoot : Hash) (sig : Signature) :
    let d : Handed τ :=
      ⟨key, last.height, last.hash, srd, wl.checkedFiles, srdRoot, filesRoot, sig⟩
    d.Plain ∧
      Says sha256 last.report (Workload.srdHashs mem d.srd) ((d.files.filter bothValid).map figure) := by
  refine ⟨⟨hu.reported.target.height, hu.reported.target.hash, hu.reported.sorted, hpaths,
    hu.lists.checked⟩, ?_⟩
  dsimp only
  rw [hu.tracked.figures (fun _ _ => Acked.bothValid) fun _ => Unseen.bothValid]
  exact hu.reported.figures

variable {floatText : Bytes → Bytes → Bytes} {usable : Nat → Nat} {s s' : State τ} {m : Move}

theorem step_other (h : step sha256 mem floatText usable env s (.other a) = some s')
    (hq : Quiet sha256 mem s (.other a)) (hi : Inv sha256 mem floatText s) :
    Inv sha256 mem floatText s' := by
  obtain ⟨wl', hp, rfl⟩ := Option.map_eq_some_iff.mp h
  obtain ⟨wl, phase⟩ := s
  cases phase with
  | idle => trivial
  | waiting last =>
    obtain ⟨rows, hw⟩ := hi
    exact ⟨rows, hw.perform hp hq.1 hq.2⟩
  | uploaded last =>
    obtain ⟨rows, hu⟩ := hi
    exact ⟨rows, hu.perform (perform_srd hp hq.1 hu.reported.sorted) hp hq.2⟩
  | srdDone last srd =>
    obtain ⟨m, rows, hpaths, hsrd, hu⟩ := hi
    exact ⟨m, rows, hpaths, hsrd, hu.perform ⟨hu.reported.sorted, rfl⟩ hp hq⟩
  | filesDone last srd files => exact hi
  | done last data => exact hi

theorem step_inv (hhash : ∀ h, NoEscape (env.blockHash h).2.val ∧ Untagged (env.blockHash h).2.val)
    (h : step sha256 mem floatText usable env s m = some s') (hq : Quiet sha256 mem s m)
    (hi : Inv sha256 mem floatText s) : Inv sha256 mem floatText s' := by
  cases m with
  | gen blockHeight =>
    simp only [step] at h
    split at h
    · rename_i last wl' hphase hgen
      cases h
      exact ⟨rowsOf s.wl, waiting_of_gen hq.1 hq.2 hhash hgen⟩
    · cases h
  | upload =>
    simp only [step] at h
    split at h
    · rename_i last hphase
      simp only [Inv, hphase] at hi
      obtain ⟨rows, hw⟩ := hi
      unfold uploadLastReport at h
      split_ifs at h
      cases h
      exact ⟨rows, hw.acked⟩
    · cases h
  | serializeSrd =>
    simp only [step] at h
    split at h
    · rename_i last hphase
      simp only [Inv, hphase] at hi
      obtain ⟨rows, hu⟩ := hi
      cases h
      exact ⟨s.wl.srdPath2hashs, rows, hq, rfl, hu⟩
    · cases h
  | serializeFile =>
    simp only [step] at h
    split at h
    · rename_i last srd hphase
      simp only [Inv, hphase] at hi
      obtain ⟨m, rows, hpaths, hsrd, hu⟩ := hi
      split at h
      · rename_i files hfiles
        cases h
        exact ⟨m, s.wl, rows, hpaths, hsrd, serializeFile_success hfiles, hu⟩
      · cases h
    · cases h
  | sign =>
    simp only [step] at h
    split at h
    · rename_i last srd files hphase
      simp only [Inv, hphase] at hi
      obtain ⟨m, wl, rows, hpaths, hsrd, hfiles, hu⟩ := hi
      split at h
      · rename_i wl' data hsigned
        cases h
        obtain ⟨roots, sig, -, -, -, hdata, -⟩ := signUpgrade_success hsigned
        obtain ⟨hplain, hsays⟩ := hu.handed hpaths s.wl.idKeyPair.pubKey roots.1 roots.2 sig
        refine ⟨_, hplain, ?_, hsays⟩
        rw [hdata, hsrd, hfiles]
        rfl
      · cases h
    · cases h
  | other a => exact step_other h hq hi

end

/-! ### The report of the new enclave -/

/-- The report that the last call of `id_restore_from_upgrade` makes and uploads, with its
signature and the block hash it is uploaded with. -/
def newReport (sha256 : Bytes → Hash) (mem : Mem) (verify : Verify) (tagOf : Nat → τ)
    (s : Upgrade.State τ) (c : Call) : Option (WorkReport τ × Signature × Bytes) :=
  match JsonParse.loadBuffer mem
    (contents (if s.received.length = 0 then c.totalSize else s.total) (s.received ++ c.data))
    (s.received ++ c.data).length with
  | .error _ => none
  | .ok doc =>
    match checkDocument sha256 mem verify c.env tagOf s.wl doc with
    | some (.verified key, wl) =>
      if c.env.entryNetwork ≠ .success then none
      else
        match genWorkReport sha256 mem c.env.report (wl.setUpgrade key).reportAddValidatedProof
          (hashText doc) (UInt64.ofNat (sizeT (atoi (heightText doc)))) true with
        | some (.success, _, some (r, sig)) => some (r, sig, hashText doc)
        | _ => none
    | _ => none

section
variable {sha256 : Bytes → Hash} {mem : Mem} {floatText : Bytes → Bytes → Bytes} {verify : Verify}
  {usable : Nat → Nat} {env : GenDataEnv} {tagOf : Nat → τ} {ns : Upgrade.State τ} {c : Call}
  {r : WorkReport τ} {sig : Signature} {hash : Bytes}

theorem newReport_some (h : newReport sha256 mem verify tagOf ns c = some (r, sig, hash)) :
    ∃ doc key wl wl', Loads mem ns c doc ∧
      checkDocument sha256 mem verify c.env tagOf ns.wl doc = some (.verified key, wl) ∧
      c.env.entryNetwork = .success ∧ hash = hashText doc ∧
      genWorkReport sha256 mem c.env.report (wl.setUpgrade key).reportAddValidatedProof
        (hashText doc) (UInt64.ofNat (sizeT (atoi (heightText doc)))) true =
        some (.success, wl', some (r, sig)) := by
  unfold newReport at h
  split at h
  · cases h
  rename_i doc hdoc
  split at h
  · rename_i key wl hcheck
    split_ifs at h with hentry
    split at h
    · rename_i wl' r' sig' hgen
      cases h
      exact ⟨doc, key, wl, wl', hdoc, hcheck, not_not.mp hentry, rfl, hgen⟩
    · cases h
  · cases h

theorem newReport_uploaded (h : newReport sha256 mem verify tagOf ns c = some (r, sig, hash))
    (hlast : c.transferEnd = true) (hbuf : encMalloc c.mallocBuffer c.totalSize = true) :
    (idRestoreFromUpgrade sha256 mem verify tagOf ns c).map (fun q => q.1.status) =
      some (c.env.upload (reportText r hash sig)) := by
  obtain ⟨doc, key, wl, wl', hload, hcheck, hentry, rfl, hgen⟩ := newReport_some h
  have hrestore := restore_of_verified hload hlast hbuf hcheck
  have hmap := congrArg (Option.map Prod.fst) hrestore
  rw [Option.map_map] at hmap
  refine hmap.trans ?_
  simp only [enterNetwork, hentry, ne_eq, not_true_eq_false, if_false, genAndUploadWorkReport, hgen,
    Option.map_some]

theorem bothValid_of_json {fs gs : List (FileItem τ)}
    (h : fs.map FileItem.json = gs.map FileItem.json) :
    (fs.filter bothValid).map figure = (gs.filter bothValid).map figure := by
  have hjson : ∀ l : List (FileItem τ), (l.filter bothValid).map figure =
      ((l.map FileItem.json).filter fun j => bothValid (⟨(), j⟩ : FileItem Unit)).map
        fun j => figure (⟨(), j⟩ : FileItem Unit) := by
    intro l
    rw [List.filter_map, List.map_map]
    rfl
  rw [hjson fs, hjson gs, h]

theorem eraseGone_upgrading (files : List (FileItem τ)) :
    itemsAt (scanFiles true (eraseGone files)).items (scanFiles true (eraseGone files)).validIdx =
        files.filter bothValid ∧
      (scanFiles true (eraseGone files)).filesSize =
        ((files.filter bothValid).map FileItem.oldSize).sum := by
  obtain ⟨hitems, hidx, hsize⟩ := scanFiles_upgrading (eraseGone files)
  rw [hitems, hidx, hsize, bothValid_kept]
  refine ⟨?_, rfl⟩
  rw [itemsAt, filterMap_findIdxs, bothValid_kept]

theorem newReport_figures {d : Handed τ} (hd : d.Plain)
    (hdata : ns.received ++ c.data = d.text mem floatText)
    (h : newReport sha256 mem verify tagOf ns c = some (r, sig, hash)) :
    Says sha256 r (Workload.srdHashs mem d.srd) ((d.files.filter bothValid).map figure) := by
  obtain ⟨doc, key, wl, wl', hload, hcheck, -, -, hgen⟩ := newReport_some h
  have hloads := Handed.loads (s := ns) (c := c) hd hdata
  obtain rfl : d.doc mem floatText = doc := by
    rw [Loads] at hload hloads
    exact Except.ok.inj (hloads.symm.trans hload)
  have hwl : wl = d.restored mem tagOf ns.wl := by
    unfold checkDocument at hcheck
    split at hcheck
    · cases hcheck
    · split at hcheck
      · cases hcheck
      · rename_i wl₁ hrestored
        split at hcheck
        · cases hcheck
        · cases hcheck
          exact Handed.restoreWorkload_done hd.sorted hrestored
  obtain ⟨-, -, -, hs, hhs, hreport⟩ := (genWorkReport_signed hgen).report _ _ rfl
  have hfiles : (wl.setUpgrade key).reportAddValidatedProof.checkedFiles = wl.checkedFiles := rfl
  rw [hfiles] at hhs hreport
  obtain ⟨hitems, hsize⟩ := eraseGone_upgrading wl.checkedFiles
  have hfigures : Says sha256 r (Workload.srdHashs mem wl.srdPath2hashs)
      ((wl.checkedFiles.filter bothValid).map figure) := by
    rw [hreport]
    exact figures_buildReport hitems hsize hhs
  have hjson := bothValid_of_json (Handed.restored_files mem tagOf ns.wl d)
  have hsrd : Workload.srdHashs mem (d.restored mem tagOf ns.wl).srdPath2hashs =
      Workload.srdHashs mem d.srd := srdHashs_stored mem d.srd
  rw [hwl] at hfigures
  rw [← hjson, ← hsrd]
  exact hfigures

theorem scanFiles_upgrading_lists (files : List (FileItem τ)) :
    (scanFiles true files).addedFiles = str "[" ∧ (scanFiles true files).deletedFiles = str "[" := by
  induction files using List.reverseRecOn with
  | nil => exact ⟨rfl, rfl⟩
  | append_singleton files f ih =>
    have hstep : scanFiles true (files ++ [f]) = scanFile true (scanFiles true files) f := by
      rw [scanFiles, List.foldl_append]
      rfl
    rw [hstep, scanFile]
    dsimp only
    rw [if_pos rfl]
    split_ifs
    · exact ih
    · exact ih

theorem newReport_lists (h : newReport sha256 mem verify tagOf ns c = some (r, sig, hash)) :
    r.addedFiles = str "[]" ∧ r.deletedFiles = str "[]" := by
  obtain ⟨doc, key, wl, wl', -, -, -, -, hgen⟩ := newReport_some h
  obtain ⟨-, -, -, hs, -, hreport⟩ := (genWorkReport_signed hgen).report _ _ rfl
  obtain ⟨hadded, hdeleted⟩ := scanFiles_upgrading_lists
    (eraseGone (wl.setUpgrade key).reportAddValidatedProof.checkedFiles)
  rw [hreport]
  simp only [buildReport, hadded, hdeleted]
  exact ⟨rfl, rfl⟩

/-- In every quiet run of a hand-over, whatever the steps in between, the new enclave reports
the figures of the last report of the old one. -/
theorem reports_agree {s t : State τ} {moves : List Move} {last : LastReport τ} {data : Bytes}
    (hhash : ∀ h, NoEscape (env.blockHash h).2.val ∧ Untagged (env.blockHash h).2.val)
    (hidle : s.phase = .idle)
    (hrun : Runs.run (step sha256 mem floatText usable env) s moves = some t)
    (hquiet : Runs.Allowed (step sha256 mem floatText usable env) (Quiet sha256 mem) s moves)
    (hdone : t.phase = .done last data) (hdata : ns.received ++ c.data = data)
    (hnew : newReport sha256 mem verify tagOf ns c = some (r, sig, hash)) :
    SameFigures last.report r ∧ r.addedFiles = str "[]" ∧ r.deletedFiles = str "[]" := by
  have hstart : Inv sha256 mem floatText s := by
    rw [Inv, hidle]
    trivial
  have hinv : Inv sha256 mem floatText t :=
    Runs.run_invariant_of (fun _ _ _ h hq hi => step_inv hhash h hq hi) hrun hquiet hstart
  simp only [Inv, hdone] at hinv
  obtain ⟨d, hd, htext, hold⟩ := hinv
  exact ⟨hold.same (newReport_figures hd (hdata.trans htext) hnew), newReport_lists hnew⟩

end

/-! ### Two interleavings -/

def oneDisk : Srd.PathMap := [(str "/b", [List.replicate 32 1, List.replicate 32 2])]

def handOver : State Unit where
  wl :=
    { oldWorkload oneDisk with
      newFiles := [⟨(), smallEntry.json⟩]
      upgradeStatus := .process }
  phase := .idle

def smallStep : State Unit → Move → Option (State Unit) :=
  step Sha256.sha256 plainMem (fun v _ => v) (max 24) openGen

def movesWith (acts : List Act) : List Move :=
  [.gen 700, .other .merge, .upload] ++ acts.map .other ++ [.serializeSrd, .serializeFile, .sign]

def bothReports (acts : List Act) : Option (LastReport Unit × Bytes × WorkReport Unit) :=
  (Runs.run smallStep handOver (movesWith acts)).bind fun t =>
    match t.phase with
    | .done last data =>
      (newReport Sha256.sha256 plainMem hashVerify (fun _ => ()) freshState (wholeCall data)).map
        fun q => (last, data, q.1)
    | _ => none

theorem bothReports_some {acts : List Act} {last : LastReport Unit} {data : Bytes}
    {r : WorkReport Unit} (h : bothReports acts = some (last, data, r)) :
    ∃ t sig hash, Runs.run smallStep handOver (movesWith acts) = some t ∧
      t.phase = .done last data ∧
      newReport Sha256.sha256 plainMem hashVerify (fun _ => ()) freshState (wholeCall data) =
        some (r, sig, hash) := by
  obtain ⟨t, hrun, ht⟩ := Option.bind_eq_some_iff.mp h
  split at ht
  · rename_i last' data' hphase
    obtain ⟨⟨r', sig, hash⟩, hnew, hq⟩ := Option.map_eq_some_iff.mp ht
    simp only [Prod.mk.injEq] at hq
    obtain ⟨rfl, rfl, rfl⟩ := hq
    exact ⟨t, sig, hash, hrun, hphase, hnew⟩
  · cases ht

theorem quiet_other {sha256 : Bytes → Hash} {mem : Mem} {s : State τ} {a : Act}
    (hs : KeepsSrd sha256 mem s.wl a) (hf : KeepsFiles sha256 mem s.wl a) :
    Quiet sha256 mem s (.other a) := by
  unfold Quiet
  dsimp only
  split
  · exact ⟨hs, hf⟩
  · exact ⟨hs, hf⟩
  · exact hf
  · trivial

theorem handOver_ready : Ready handOver.wl where
  checked := oldWorkload_entries oneDisk
  new := oldWorkload_entries oneDisk
  fresh := by
    intro f hf
    rw [List.mem_singleton.mp hf]
    decide
  sorted := List.pairwise_singleton _ _
  noneLeftOut := by
    intro i f hi horigin
    have hmem : f ∈ handOver.wl.checkedFiles := List.mem_of_mem_filter (List.mem_of_getElem? hi)
    rw [List.mem_singleton.mp hmem] at horigin
    exact absurd horigin (by decide)

theorem handOver_runs :
    (Runs.run smallStep handOver
      [.gen 700, .other .merge, .upload, .other (.srdDecrease (fun _ => .success) 0 [])]).map
        (fun s => s.wl.srdPath2hashs) = some oneDisk ∧
    (bothReports [.srdDecrease (fun _ => .success) 0 []]).map
      (fun q => q.1.report.filesSize) = some 100 ∧
    (bothReports [.srdDecrease (fun _ => .success) 1 []]).map
      (fun q => decide (q.2.2.reserved = q.1.report.reserved)) = some false := by
  decide +kernel

theorem handOver_quiet : Runs.Allowed smallStep (Quiet Sha256.sha256 plainMem) handOver
    (movesWith [.srdDecrease (fun _ => .success) 0 []]) := by
  have heval := handOver_runs.1
  refine ⟨⟨handOver_ready, by decide⟩, ?_⟩
  split
  · trivial
  rename_i s₁ h₁
  refine ⟨quiet_other trivial trivial, ?_⟩
  split
  · trivial
  rename_i s₂ h₂
  refine ⟨trivial, ?_⟩
  split
  · trivial
  rename_i s₃ h₃
  refine ⟨quiet_other (.inl ⟨le_refl _, rfl⟩) trivial, ?_⟩
  split
  · trivial
  rename_i s₄ h₄
  have hsrd : s₄.wl.srdPath2hashs = oneDisk := by
    simpa only [Runs.run, h₁, h₂, h₃, h₄, Option.map_some, Option.some.injEq] using heval
  have hpaths : PlainPaths s₄.wl.srdPath2hashs := by
    rw [hsrd]
    exact show ∀ p ∈ oneDisk, NoEscape p.1 ∧ Untagged p.1 by decide
  refine ⟨hpaths, ?_⟩
  split
  · trivial
  refine ⟨trivial, ?_⟩
  split
  · trivial
  refine ⟨trivial, ?_⟩
  split
  · trivial
  · trivial

theorem reports_agree_oneDisk :
    ∃ last data r, bothReports [.srdDecrease (fun _ => .success) 0 []] = some (last, data, r) ∧
      last.report.filesSize = 100 ∧ SameFigures last.report r := by
  obtain ⟨-, heval, -⟩ := handOver_runs
  obtain ⟨⟨last, data, r⟩, hboth, hsize⟩ := Option.map_eq_some_iff.mp heval
  obtain ⟨t, sig, hash, hrun, hphase, hnew⟩ := bothReports_some hboth
  exact ⟨last, data, r, hboth, hsize,
    (reports_agree openGen_hash rfl hrun handOver_quiet hphase rfl hnew).1⟩

theorem reports_differ :
    ∃ last data r, bothReports [.srdDecrease (fun _ => .success) 1 []] = some (last, data, r) ∧
      ¬ SameFigures last.report r := by
  obtain ⟨-, -, heval⟩ := handOver_runs
  obtain ⟨⟨last, data, r⟩, hboth, hne⟩ := Option.map_eq_some_iff.mp heval
  refine ⟨last, data, r, hboth, fun h => ?_⟩
  exact absurd h.reserved (by simpa using hne)

end CrustSworker.UpgradeReport

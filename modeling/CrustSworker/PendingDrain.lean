import CrustSworker.FileLedger
import CrustSworker.UpgradeSignature
import CrustSworker.ValidatePass

/-!
# Pending file changes

A report lists the entries whose current status is news to the chain, at most
`WORKREPORT_FILE_LIMIT` of them, and the acknowledgement makes their news the origin status.
Which pairs of statuses there are at all is a matter of how a status may change: an entry
leaves the unconfirmed state once and for all, and never comes back from being deleted. Both
older statuses of an entry, the waiting and the origin one, are statuses it has had. The files of
an upgrade document are taken as they are, before anything in it is checked.
-/

namespace CrustSworker.PendingDrain

open FileStats Report Upgrade

/-! ### Reachable file lists -/

section
variable (sha256 : Bytes → Hash) (mem : Mem) (taken : JSON → Prop)

/-- What may happen to the files of an enclave, in any order. -/
inductive Step (wl : Workload Nat) : Workload Nat → Prop
  | files {wl'} (a : FileStats.Act Nat) (h : FileStats.step sha256 mem wl a = some wl') : Step wl wl'
  | initFailed : Step wl (Validator.initFailed wl)
  | check {p} (env : Validator.CheckEnv) (i : Nat)
      (h : Validator.checkFile sha256 mem env ⟨wl, [], false⟩ i = some p) : Step wl p.wl
  | settle (changed : List (Nat × Bool)) : Step wl (Validator.settleChanged wl changed)
  | idle {wl'} (h : FileLedger.filesOf wl' = FileLedger.filesOf wl) : Step wl wl'
  | restoreFile (tagOf : Nat → Nat) (fileJson : JSON) (h : ∀ j ∈ fileJson.loopRange, taken j) :
      Step wl (wl.restoreFile tagOf fileJson)

/-- The metadata bring back the entries of a list that was stored, into an enclave that has just
been started or into any other. -/
inductive Reachable : Workload Nat → Prop
  | init (keys : KeyPair) (pre : PubKey) : Reachable (Workload.init keys pre)
  | step {wl wl'} (h : Reachable wl) (hstep : Step sha256 mem taken wl wl') : Reachable wl'
  | restoreMetadata {wl stored wl'} (h : Reachable wl) (hstored : Reachable stored)
      (hfiles : wl'.checkedFiles.map FileItem.json = stored.checkedFiles.map FileItem.json)
      (hnew : wl'.newFiles = wl.newFiles) : Reachable wl'

end

section
variable {sha256 : Bytes → Hash} {mem : Mem} {taken : JSON → Prop} {wl wl' : Workload Nat}

theorem Reachable.idle (h : Reachable sha256 mem taken wl)
    (hfiles : FileLedger.filesOf wl' = FileLedger.filesOf wl) : Reachable sha256 mem taken wl' :=
  h.step (.idle hfiles)

theorem reachable_run {acts : List (FileStats.Act Nat)} (h : Reachable sha256 mem taken wl)
    (hrun : Runs.run (FileStats.step sha256 mem) wl acts = some wl') :
    Reachable sha256 mem taken wl' :=
  Runs.run_invariant (fun _ a _ hstep hr => Reachable.step hr (.files a hstep)) hrun h

theorem reachable_upload {env : ReportEnv} {upload : Bytes → CrustStatus} {blockHash : Bytes}
    {blockHeight : UInt64} {isUpgrading : Bool} {status : CrustStatus}
    (h : Reachable sha256 mem taken wl)
    (hup : genAndUploadWorkReport sha256 mem env upload wl blockHash blockHeight isUpgrading =
      some (status, wl')) : Reachable sha256 mem taken wl' := by
  have hgen : ∀ res, genWorkReport sha256 mem env wl blockHash blockHeight isUpgrading = some res →
      Reachable sha256 mem taken res.2.1 := by
    intro res hres
    refine h.step (.files (.gen env blockHash blockHeight isUpgrading) ?_)
    rw [FileStats.step, hres]
    rfl
  unfold genAndUploadWorkReport at hup
  split at hup
  · cases hup
  · rename_i hres
    have hr := hgen _ hres
    dsimp only at hup hr
    cases hup
    split_ifs
    · exact hr.step (.files .ack rfl)
    · exact hr
  · rename_i hres
    cases hup
    exact hgen _ hres

theorem reachable_restoreWorkload (h : Reachable sha256 mem taken wl) (env : UpgradeEnv)
    (tagOf : Nat → Nat) {doc : JSON} (htaken : ∀ j ∈ (doc.get upgradeFile).loopRange, taken j) :
    Reachable sha256 mem taken (restoreWorkload env tagOf wl doc).2 := by
  have hsrd : Reachable sha256 mem taken
      (wl.restoreSrd env.mallocHash (doc.get upgradeSrd)).2 := by
    refine h.idle ?_
    unfold Workload.restoreSrd
    split
    · rfl
    · rfl
  unfold restoreWorkload
  split
  · rename_i wl₁ hr
    rw [hr] at hsrd
    exact hsrd.step (.restoreFile tagOf _ htaken)
  · rename_i wl₁ _ hr
    rw [hr] at hsrd
    exact hsrd

/-- Whatever becomes of an upgrade document, the files it leaves are reachable when its own are
taken. -/
theorem reachable_restoreFromUpgrade {verify : Verify} {tagOf : Nat → Nat} {u u' : State Nat}
    {c : Call} {reply : Reply} (h : Reachable sha256 mem taken u.wl)
    (htaken : ∀ doc, Loads mem u c doc → ∀ j ∈ (doc.get upgradeFile).loopRange, taken j)
    (hcall : ecallRestoreFromUpgrade sha256 mem verify tagOf u c = some (reply, u')) :
    Reachable sha256 mem taken u'.wl := by
  unfold ecallRestoreFromUpgrade idRestoreFromUpgrade at hcall
  dsimp only at hcall
  split at hcall
  · cases hcall
    exact h
  split at hcall
  · cases hcall
    exact h
  split at hcall
  · cases hcall
    exact h
  split at hcall
  · cases hcall
  rename_i doc hload
  have hchecked : ∀ v wl₁, checkDocument sha256 mem verify c.env tagOf u.wl doc = some (v, wl₁) →
      Reachable sha256 mem taken wl₁ := by
    intro v wl₁ hc
    obtain ⟨-, rfl⟩ | ⟨-, rfl⟩ := checkDocument_cases hc
    · exact h
    · exact reachable_restoreWorkload h c.env tagOf (htaken doc hload)
  split at hcall
  · cases hcall
  rename_i reply₁ wl₁ hdoc
  cases hcall
  unfold restoreDocument at hdoc
  split at hdoc
  · cases hdoc
  · rename_i status wl₂ hc
    cases hdoc
    exact hchecked _ _ hc
  · rename_i key wl₂ hc
    split at hdoc
    · cases hdoc
    rename_i status wl₃ hn
    cases hdoc
    have hkey : Reachable sha256 mem taken (wl₂.setUpgrade key) := (hchecked _ _ hc).idle rfl
    unfold enterNetwork at hn
    dsimp only at hn
    split_ifs at hn
    · cases hn
      exact hkey
    · have hproof : Reachable sha256 mem taken (wl₂.setUpgrade key).reportAddValidatedProof :=
        hkey.idle rfl
      exact reachable_upload hproof hn

end

/-! ### Statuses an entry has had -/

def statuses : List UInt8 := [statusUnconfirmed, statusValid, statusLost, statusDeleted]

structure Leads (before now : UInt8) : Prop where
  before_mem : before ∈ statuses
  now_mem : now ∈ statuses
  deleted : before = statusDeleted → now = statusDeleted
  unconfirmed : now = statusUnconfirmed → before = statusUnconfirmed

theorem Leads.refl {c : UInt8} (h : c ∈ statuses) : Leads c c := ⟨h, h, id, id⟩

theorem Leads.trans {a b c : UInt8} (h₁ : Leads a b) (h₂ : Leads b c) : Leads a c :=
  ⟨h₁.before_mem, h₂.now_mem, fun h => h₂.deleted (h₁.deleted h),
    fun h => h₁.unconfirmed (h₂.unconfirmed h)⟩

theorem Leads.to_deleted {c : UInt8} (h : c ∈ statuses) : Leads c statusDeleted :=
  ⟨h, by decide, fun _ => rfl, fun h => absurd h (by decide)⟩

structure Lawful (f : FileItem Nat) : Prop where
  status : f.HasStatus
  waiting : Leads f.waiting f.current
  origin : Leads f.origin f.current

def LawfulEntry (j : JSON) : Prop := Lawful ⟨0, j⟩

namespace Lawful

variable {f g : FileItem Nat}

theorem of_json (h : Lawful f) (hj : g.json = f.json) : Lawful g := by
  have hstatus : g.status = f.status := congrArg (fun j => j.get fileStatus) hj
  have hchar : ∀ i, g.statusChar i = f.statusChar i := fun i =>
    congrArg (fun j => j.getChar i) hstatus
  refine ⟨?_, ?_, ?_⟩
  · rw [FileItem.HasStatus, hstatus]
    exact h.status
  · rw [FileItem.waiting, FileItem.current, hchar, hchar]
    exact h.waiting
  · rw [FileItem.origin, FileItem.current, hchar, hchar]
    exact h.origin

theorem toStr (h : Lawful f) : f.status.toStr = [f.current, f.waiting, f.origin] := by
  have hkept : ∀ c ∈ statuses, escapeChar c = [c] := by
    intro c hc
    simp only [statuses, List.mem_cons, List.not_mem_nil, or_false] at hc
    rcases hc with rfl | rfl | rfl | rfl <;> rfl
  obtain ⟨s, hs, hlen⟩ := h.status
  have hcur := hkept _ h.origin.now_mem
  have hwait := hkept _ h.waiting.before_mem
  have horig := hkept _ h.origin.before_mem
  unfold FileItem.current FileItem.waiting FileItem.origin FileItem.statusChar at *
  rw [hs] at hcur hwait horig ⊢
  match s, hlen with
  | [a, b, c], _ =>
    rw [JSON.toStr, jsonEscape, List.flatMap_cons, List.flatMap_cons, List.flatMap_cons,
      show escapeChar a = [a] from hcur, show escapeChar b = [b] from hwait,
      show escapeChar c = [c] from horig]
    rfl

theorem setCurrent (h : Lawful f) {c : UInt8} (hc : Leads f.current c) :
    Lawful (f.setStatusChar currentStatus c) := by
  have hcur : (f.setStatusChar currentStatus c).current = c := h.status.char_self (by decide) c
  have hwait : (f.setStatusChar currentStatus c).waiting = f.waiting :=
    h.status.char_ne (by decide) (by decide) c
  have horig : (f.setStatusChar currentStatus c).origin = f.origin :=
    h.status.char_ne (by decide) (by decide) c
  refine ⟨h.status.set (by decide) c, ?_, ?_⟩
  · rw [hcur, hwait]
    exact h.waiting.trans hc
  · rw [hcur, horig]
    exact h.origin.trans hc

theorem markWaiting (h : Lawful f) : Lawful (Report.markWaiting f) := by
  refine ⟨h.status.set (by decide) _, ?_, ?_⟩
  · rw [markWaiting_waiting h.status, markWaiting_current h.status]
    exact .refl h.origin.now_mem
  · rw [markWaiting_origin h.status, markWaiting_current h.status]
    exact h.origin

theorem ack (h : Lawful f) : Lawful (FileLedger.ackItem f) := by
  have hcur : (FileLedger.ackItem f).current = f.current := h.status.char_ne (by decide) (by decide) _
  have hwait : (FileLedger.ackItem f).waiting = f.waiting :=
    h.status.char_ne (by decide) (by decide) _
  have horig : (FileLedger.ackItem f).origin = f.waiting := h.status.char_self (by decide) _
  refine ⟨h.status.set (by decide) _, ?_, ?_⟩
  · rw [hcur, hwait]
    exact h.waiting
  · rw [hcur, horig]
    exact h.waiting

theorem confirm (h : Lawful f) : Lawful (Storage.confirmItem f) := by
  unfold Storage.confirmItem
  split_ifs with hu
  · refine h.setCurrent ?_
    rw [hu]
    exact ⟨by decide, by decide, by decide, by decide⟩
  · exact h

theorem verdict (h : Lawful f) (v : Validator.Verdict) : Lawful (Validator.applyVerdict v f) := by
  unfold Validator.applyVerdict
  split
  · split_ifs with hv
    · refine h.setCurrent ?_
      rw [hv]
      exact ⟨by decide, by decide, by decide, by decide⟩
    · exact h
  · split_ifs with hl
    · refine h.setCurrent ?_
      rw [hl]
      exact ⟨by decide, by decide, by decide, by decide⟩
    · exact h
  · exact h

theorem delete (h : Lawful f) : Lawful (f.setStatusChar currentStatus statusDeleted) :=
  h.setCurrent (.to_deleted h.origin.now_mem)

end Lawful

theorem lawful_sealed (tag : Nat) (nh oh : Hash) (ns : Nat) (os : Int) (bn : Nat) :
    Lawful ⟨tag, Seal.fileEntry nh oh ns os bn⟩ := by
  have hstatus : (⟨tag, Seal.fileEntry nh oh ns os bn⟩ : FileItem Nat).status =
      .string (str "000") := by
    simp [FileItem.status, Seal.fileEntry]
  have hchar : ∀ i < 3, (⟨tag, Seal.fileEntry nh oh ns os bn⟩ : FileItem Nat).statusChar i =
      statusUnconfirmed := by
    intro i hi
    rw [FileItem.statusChar, hstatus]
    interval_cases i
    all_goals rfl
  refine ⟨⟨_, hstatus, rfl⟩, ?_, ?_⟩
  · rw [FileItem.waiting, FileItem.current, hchar _ (by decide), hchar _ (by decide)]
    exact .refl (by decide)
  · rw [FileItem.origin, FileItem.current, hchar _ (by decide), hchar _ (by decide)]
    exact .refl (by decide)

/-! ### Every reachable entry -/

structure AllLawful (wl : Workload Nat) : Prop where
  checked : ∀ f ∈ wl.checkedFiles, Lawful f
  new : ∀ f ∈ wl.newFiles, Lawful f

theorem lawful_modify {files : List (FileItem Nat)} (h : ∀ f ∈ files, Lawful f) (i : Nat)
    {g : FileItem Nat → FileItem Nat} (hg : ∀ f, Lawful f → Lawful (g f)) :
    ∀ f ∈ files.modify i g, Lawful f := by
  intro f hf
  rcases mem_modify hf with hf | ⟨e, he, rfl⟩
  · exact h f hf
  · exact hg e (h e he)

theorem lawful_ackFiles (idxs : List Nat) {files : List (FileItem Nat)}
    (h : ∀ f ∈ files, Lawful f) : ∀ f ∈ idxs.foldl Workload.ackFile files, Lawful f := by
  induction idxs generalizing files with
  | nil => exact h
  | cons i idxs ih => exact ih (lawful_modify h i fun f hf => hf.ack)

section
variable {sha256 : Bytes → Hash} {mem : Mem} {wl wl' : Workload Nat}

theorem lawful_confirm (h : AllLawful wl) (hash : Bytes) :
    AllLawful (Storage.storageConfirmFile wl hash) := by
  unfold Storage.storageConfirmFile
  split
  · rename_i i _
    obtain ⟨hc, hn⟩ := entries_move { wl with
      checkedFiles := wl.checkedFiles.modify i Storage.confirmItem } statusValid statusUnconfirmed
      (Storage.oldSizeAt wl.checkedFiles i)
    refine ⟨?_, ?_⟩
    · rw [hc]
      exact lawful_modify h.checked i fun f hf => hf.confirm
    · rw [hn]
      exact h.new
  · split
    · rename_i i _
      obtain ⟨hc, hn⟩ := entries_move { wl with
        newFiles := wl.newFiles.modify i Storage.confirmItem } statusValid statusUnconfirmed
        (Storage.oldSizeAt wl.newFiles i)
      refine ⟨?_, ?_⟩
      · rw [hc]
        exact h.checked
      · rw [hn]
        exact lawful_modify h.new i fun f hf => hf.confirm
    · exact h

theorem lawful_delete (h : AllLawful wl) (hash : Bytes) :
    AllLawful (Storage.storageDeleteFile wl hash) := by
  unfold Storage.storageDeleteFile
  split
  · rename_i i _
    obtain ⟨info, hdrop⟩ := Storage.dropSpec_eq { wl with
      checkedFiles := Workload.setStatusAt wl.checkedFiles i currentStatus statusDeleted }
      wl.checkedFiles i
    rw [hdrop]
    exact ⟨lawful_modify h.checked i fun f hf => hf.delete, h.new⟩
  · split
    · rename_i i _
      obtain ⟨info, hdrop⟩ := Storage.dropSpec_eq { wl with newFiles := wl.newFiles.eraseIdx i }
        wl.newFiles i
      rw [hdrop]
      exact ⟨h.checked, fun f hf => h.new f (List.mem_of_mem_eraseIdx hf)⟩
    · exact h

theorem lawful_gen {env : ReportEnv} {blockHash : Bytes} {blockHeight : UInt64} {isUpgrading : Bool}
    {res : GenResult Nat} (h : AllLawful wl)
    (hg : genWorkReport sha256 mem env wl blockHash blockHeight isUpgrading = some res) :
    AllLawful res.2.1 := by
  have hchecked := ValidatePass.gen_checked hg
  refine ⟨?_, ?_⟩
  · rw [hchecked]
    split_ifs
    · intro f hf
      obtain ⟨e, he, rfl⟩ := List.mem_map.mp hf
      have hlaw := h.checked e (List.mem_of_mem_filter he)
      unfold ValidatePass.mark
      split_ifs
      · exact hlaw
      · exact hlaw.markWaiting
    · exact h.checked
  · rw [ValidatePass.gen_new hg]
    exact h.new

theorem lawful_seal {env : Seal.SealEnv} {tag : Nat} {treeText path : Bytes}
    {res : Seal.SealResult Nat} (h : AllLawful wl)
    (hres : Seal.storageSealFile sha256 mem env tag wl treeText path = some res) :
    AllLawful res.wl := by
  by_cases hs : res.status = .success
  · obtain ⟨treeJson, w, newRoot, newHash, orgHash, -, -, -, -, -, hwl⟩ :=
      Seal.storageSealFile_success hres hs
    rw [hwl]
    refine ⟨h.checked, fun f hf => ?_⟩
    rcases List.mem_append.mp hf with hf | hf
    · exact h.new f hf
    · rw [List.mem_singleton.mp hf]
      exact lawful_sealed _ _ _ _ _ _
  · rw [Seal.storageSealFile_failed hres hs]
    exact h

theorem lawful_files {a : FileStats.Act Nat} (h : AllLawful wl)
    (hstep : FileStats.step sha256 mem wl a = some wl') : AllLawful wl' := by
  cases a with
  | sealFile env tag treeText path =>
    obtain ⟨res, hres, rfl⟩ := Option.map_eq_some_iff.mp hstep
    exact lawful_seal h hres
  | confirm hash =>
    cases hstep
    exact lawful_confirm h hash
  | delete hash =>
    cases hstep
    exact lawful_delete h hash
  | merge =>
    cases hstep
    refine ⟨fun f hf => ?_, fun f hf => ?_⟩
    · exact (List.mem_append.mp hf).elim (h.checked f) (h.new f)
    · cases hf
  | gen env blockHash blockHeight isUpgrading =>
    obtain ⟨res, hres, rfl⟩ := Option.map_eq_some_iff.mp hstep
    exact lawful_gen h hres
  | ack =>
    cases hstep
    exact ⟨lawful_ackFiles wl.reportedFilesIdx h.checked, h.new⟩

theorem lawful_check {env : Validator.CheckEnv} {i : Nat} {p : Validator.Pass Nat} (h : AllLawful wl)
    (hp : Validator.checkFile sha256 mem env ⟨wl, [], false⟩ i = some p) : AllLawful p.wl := by
  unfold Validator.checkFile at hp
  cases hf : wl.checkedFiles[i]? with
  | none =>
    simp only [hf] at hp
    cases hp
    exact h
  | some f =>
    cases hv : Validator.judgeFile sha256 mem env f with
    | none =>
      simp only [hf, hv] at hp
      cases hp
    | some v =>
      cases v with
      | offline =>
        simp only [hf, hv] at hp
        cases hp
        exact ⟨h.checked, h.new⟩
      | _ =>
        simp only [hf, hv] at hp
        cases hp
        exact ⟨lawful_modify h.checked i fun f hf => hf.verdict _, h.new⟩

theorem lawful_of_json {stored : Workload Nat}
    (hjson : wl'.checkedFiles.map FileItem.json = stored.checkedFiles.map FileItem.json)
    (hnew : wl'.newFiles = wl.newFiles) (h : AllLawful wl) (hstored : AllLawful stored) :
    AllLawful wl' := by
  refine ⟨fun f hf => ?_, hnew ▸ h.new⟩
  have hmem : f.json ∈ stored.checkedFiles.map FileItem.json := hjson ▸ List.mem_map_of_mem hf
  obtain ⟨e, he, heq⟩ := List.mem_map.mp hmem
  exact (hstored.checked e he).of_json heq.symm

theorem Step.lawful (h : AllLawful wl) (hstep : Step sha256 mem LawfulEntry wl wl') :
    AllLawful wl' := by
  cases hstep with
  | files a ha => exact lawful_files h ha
  | initFailed =>
    unfold Validator.initFailed
    split_ifs
    · exact ⟨h.checked, h.new⟩
    · exact h
  | check env i hp => exact lawful_check h hp
  | settle changed =>
    obtain ⟨info, hwl⟩ := Validator.settleChanged_eq wl changed
    rw [hwl]
    exact ⟨h.checked, h.new⟩
  | idle hfiles =>
    simp only [FileLedger.filesOf, Prod.mk.injEq] at hfiles
    exact ⟨hfiles.1 ▸ h.checked, hfiles.2.1 ▸ h.new⟩
  | restoreFile tagOf fileJson hlawful =>
    rw [restoreFile_eq]
    refine ⟨fun f hf => ?_, h.new⟩
    obtain ⟨⟨j, i⟩, hj, rfl⟩ := List.mem_map.mp hf
    exact (hlawful j (List.fst_mem_of_mem_zipIdx hj)).of_json rfl

theorem Reachable.lawful (h : Reachable sha256 mem LawfulEntry wl) : AllLawful wl := by
  induction h with
  | init keys pre =>
    refine ⟨fun f hf => ?_, fun f hf => ?_⟩
    · cases hf
    · cases hf
  | step _ hstep ih => exact hstep.lawful ih
  | restoreMetadata _ _ hfiles hnew ih ihstored => exact lawful_of_json hfiles hnew ih ihstored

end

/-! ### What a report lists -/

def pendingNum (wl : Workload Nat) : Nat := wl.checkedFiles.countP isPending

theorem isGone_not_pending {f : FileItem Nat} (h : isGone f = true) : isPending f = false := by
  cases hp : isPending f with
  | false => rfl
  | true =>
    rcases isPending_cases hp with ⟨hv, -⟩ | ⟨-, hv⟩
    · rcases isGone_current h with hcur | hcur
      · rw [hcur] at hv
        cases hv
      · rw [hcur] at hv
        cases hv
    · exact absurd hv (isGone_origin h)

theorem filter_pending_eraseGone (files : List (FileItem Nat)) :
    (eraseGone files).filter isPending = files.filter isPending := by
  rw [eraseGone, List.filter_filter]
  refine List.filter_congr fun f _ => ?_
  cases hg : isGone f with
  | false => simp
  | true => simp [isGone_not_pending hg]

theorem listed_row (acc : Nat) (f : FileItem Nat) :
    (⟨markWaiting f, kindOf acc f⟩ : Row Nat).listed =
      (decide (acc < workreportFileLimit) && isPending f) := by
  unfold Row.listed kindOf
  split_ifs with h hk
  · simp [h]
  · simp [h]
  · simp only [ne_eq, not_true_eq_false, decide_false]
    symm
    rw [Bool.and_eq_false_iff, decide_eq_false_iff_not]
    by_cases hacc : acc < workreportFileLimit
    · exact .inr (Bool.not_eq_true _ ▸ fun hp => h ⟨hacc, hp⟩)
    · exact .inl hacc

theorem listed_rows (acc : Nat) (files : List (FileItem Nat)) :
    ((rowsFrom acc files).filter Row.listed).map Row.item =
      ((files.filter isPending).take (workreportFileLimit - acc)).map markWaiting := by
  induction files generalizing acc with
  | nil => simp [rowsFrom]
  | cons f files ih =>
    rw [rowsFrom]
    cases hp : isPending f with
    | false =>
      have hrow : (⟨markWaiting f, kindOf acc f⟩ : Row Nat).listed = false := by
        rw [listed_row, hp, Bool.and_false]
      simp only [hrow, List.filter_cons, Bool.false_eq_true, if_false, hp]
      exact ih acc
    | true =>
      by_cases hacc : acc < workreportFileLimit
      · have hrow : (⟨markWaiting f, kindOf acc f⟩ : Row Nat).listed = true := by
          rw [listed_row, hp, decide_eq_true hacc, Bool.true_and]
        obtain ⟨k, hk⟩ : ∃ k, workreportFileLimit - acc = k + 1 :=
          ⟨workreportFileLimit - acc - 1, by omega⟩
        have hk' : workreportFileLimit - (acc + 1) = k := by omega
        simp only [hrow, List.filter_cons, if_true, hp, hk, List.take_succ_cons, List.map_cons]
        rw [ih (acc + 1), hk']
      · have hrow : (⟨markWaiting f, kindOf acc f⟩ : Row Nat).listed = false := by
          rw [listed_row, decide_eq_false hacc, Bool.false_and]
        have hnone : workreportFileLimit - acc = 0 := by omega
        simp only [hrow, List.filter_cons, Bool.false_eq_true, if_false]
        rw [ih acc, hnone, List.take_zero, List.take_zero]

theorem listed_perm (rows : List (Row Nat)) :
    (addedOf rows ++ deletedOf rows).Perm ((rows.filter Row.listed).map Row.item) := by
  induction rows with
  | nil => exact .refl _
  | cons r rows ih =>
    unfold addedOf deletedOf at ih ⊢
    cases hk : r.kind with
    | plain => simpa [List.filter_cons, Row.listed, hk] using ih
    | added => simpa [List.filter_cons, Row.listed, hk] using ih
    | deleted =>
      simp only [List.filter_cons, Row.listed, hk, reduceCtorEq, decide_false, Bool.false_eq_true,
        if_false, decide_true, if_true, List.map_cons, ne_eq, not_false_eq_true]
      exact List.perm_middle.trans (ih.cons _)

/-! ### What an acknowledgement leaves -/

theorem ack_rows (rows : List (Row Nat)) :
    (rows.findIdxs Row.listed).foldl Workload.ackFile (rows.map Row.item) =
      rows.map fun r => if r.listed then FileLedger.ackItem r.item else r.item := by
  apply List.ext_getElem?
  intro i
  rw [FileLedger.foldl_ackFile_getElem? List.nodup_findIdxs, List.getElem?_map, List.getElem?_map]
  cases hi : rows[i]? with
  | none => rfl
  | some r =>
    obtain ⟨hlt, rfl⟩ := List.getElem?_eq_some_iff.mp hi
    have hmem : i ∈ rows.findIdxs Row.listed ↔ rows[i].listed = true := by
      rw [List.mem_findIdxs_iff_exists_getElem_pos]
      exact ⟨fun ⟨_, h⟩ => h, fun h => ⟨hlt, h⟩⟩
    simp only [Option.map_some, hmem]

theorem ack_not_pending {f : FileItem Nat} (h : f.HasStatus) (hw : f.waiting = f.current) :
    isPending (FileLedger.ackItem f) = false := by
  have hcur : (FileLedger.ackItem f).current = f.current := h.char_ne (by decide) (by decide) _
  have horig : (FileLedger.ackItem f).origin = f.current := (h.char_self (by decide) _).trans hw
  cases hp : isPending (FileLedger.ackItem f) with
  | false => rfl
  | true =>
    rcases isPending_cases hp with ⟨hc, ho⟩ | ⟨hc, ho⟩
    · rw [hcur] at hc
      rw [horig] at ho
      exact absurd hc ho
    · rw [hcur] at hc
      rw [horig] at ho
      rw [ho] at hc
      exact absurd hc (by decide)

theorem countP_ack {rows : List (Row Nat)} (hok : ∀ r ∈ rows, RowOk r)
    (hlisted : ∀ r ∈ rows, r.listed = true → isPending r.item = true) :
    (rows.map fun r => if r.listed then FileLedger.ackItem r.item else r.item).countP isPending +
        (rows.filter Row.listed).length =
      (rows.map Row.item).countP isPending := by
  induction rows with
  | nil => rfl
  | cons r rows ih =>
    have hrest := ih (fun q hq => hok q (List.mem_cons_of_mem _ hq))
      fun q hq => hlisted q (List.mem_cons_of_mem _ hq)
    have hrow := hok r List.mem_cons_self
    rw [List.map_cons, List.map_cons, List.countP_cons, List.countP_cons, List.filter_cons]
    cases hl : r.listed with
    | true =>
      have hpend := hlisted r List.mem_cons_self hl
      have hdone := ack_not_pending hrow.status hrow.waiting
      simp only [if_true, hpend, hdone, Bool.false_eq_true, if_false, List.length_cons]
      omega
    | false =>
      simp only [Bool.false_eq_true, if_false]
      omega

theorem listed_pending {files : List (FileItem Nat)} (hf : ∀ f ∈ files, f.HasStatus) (acc : Nat) :
    ∀ r ∈ rowsFrom acc files, r.listed = true → isPending r.item = true := by
  induction files generalizing acc with
  | nil =>
    intro r hr
    cases hr
  | cons f files ih =>
    intro r hr hl
    rcases List.mem_cons.mp hr with rfl | hr
    · rw [listed_row, Bool.and_eq_true] at hl
      rw [markWaiting_isPending (hf f List.mem_cons_self)]
      exact hl.2
    · exact ih (fun g hg => hf g (List.mem_cons_of_mem _ hg)) _ r hr hl

/-! ### Draining -/

structure Drains (sha256 : Bytes → Hash) (mem : Mem) (wl : Workload Nat) : Prop where
  /-- A report lists the first pending entries, as many as fit. -/
  listed : ∀ env blockHash blockHeight wl₁ r sig,
    genWorkReport sha256 mem env wl blockHash blockHeight false =
        some (.success, wl₁, some (r, sig)) →
      r.addedFiles = openList r.added ++ str "]" ∧ r.deletedFiles = openList r.deleted ++ str "]" ∧
      (r.added ++ r.deleted).Perm
        (((wl.checkedFiles.filter isPending).take workreportFileLimit).map markWaiting) ∧
      r.added.length + r.deleted.length = min (pendingNum wl) workreportFileLimit
  /-- Once it is acknowledged, so many fewer are pending. -/
  acknowledged : ∀ env upload blockHash blockHeight wl',
    genAndUploadWorkReport sha256 mem env upload wl blockHash blockHeight false =
        some (.success, wl') →
      pendingNum wl' = pendingNum wl - min (pendingNum wl) workreportFileLimit
  settled : pendingNum wl = 0 →
    ∀ f ∈ wl.checkedFiles, f.origin = statusValid ↔ f.current = statusValid
  swept : pendingNum wl = 0 → ∀ env blockHash blockHeight isUpgrading res,
    genWorkReport sha256 mem env wl blockHash blockHeight isUpgrading = some res →
      res.1 = .success ∨ ValidatePass.reachesScan mem env wl blockHeight = true →
        ∀ f ∈ res.2.1.checkedFiles, f.current ≠ statusDeleted

section
variable {sha256 : Bytes → Hash} {mem : Mem} {wl wl' : Workload Nat}

def rowsOf (wl : Workload Nat) : List (Row Nat) := rowsFrom 0 (eraseGone wl.checkedFiles)

theorem gen_rows (h : AllLawful wl) {env : ReportEnv} {blockHash : Bytes} {blockHeight : UInt64}
    {res : GenResult Nat} {r : WorkReport Nat} {sig : Signature}
    (hg : genWorkReport sha256 mem env wl blockHash blockHeight false = some res)
    (hr : res.2.2 = some (r, sig)) :
    res.2.1.checkedFiles = (rowsOf wl).map Row.item ∧
      res.2.1.reportedFilesIdx = (rowsOf wl).findIdxs Row.listed ∧
      r.addedFiles = openList (addedOf (rowsOf wl)) ++ str "]" ∧
      r.deletedFiles = openList (deletedOf (rowsOf wl)) ++ str "]" ∧
      r.added = addedOf (rowsOf wl) ∧ r.deleted = deletedOf (rowsOf wl) := by
  have hexp : heightExpired wl.reportHeight blockHeight = false := by
    cases hexp : heightExpired wl.reportHeight blockHeight with
    | false => rfl
    | true =>
      unfold genWorkReport at hg
      rw [if_pos hexp] at hg
      cases hg
      cases hr
  obtain ⟨hwl, -, -, hs, -, hreport⟩ := (genWorkReport_outcome hexp hg).report r sig hr
  have hscan : scanFiles false (eraseGone wl.checkedFiles) = toScan (rowsOf wl) :=
    scanFiles_eq fun f hf => (h.checked f (List.mem_of_mem_filter hf)).status
  rw [hwl, hreport, hscan]
  exact ⟨rfl, rfl, rfl, rfl, rfl, rfl⟩

theorem success_has_report {env : ReportEnv} {blockHash : Bytes} {blockHeight : UInt64}
    {isUpgrading : Bool} {res : GenResult Nat}
    (hg : genWorkReport sha256 mem env wl blockHash blockHeight isUpgrading = some res)
    (hs : res.1 = .success) : ∃ r sig, res.2.2 = some (r, sig) := by
  cases hexp : heightExpired wl.reportHeight blockHeight with
  | true =>
    unfold genWorkReport at hg
    rw [if_pos hexp] at hg
    cases hg
    cases hs
  | false =>
    have hsome := (genWorkReport_outcome hexp hg).success_iff.mp hs
    obtain ⟨⟨r, sig⟩, hr⟩ := Option.isSome_iff_exists.mp hsome
    exact ⟨r, sig, hr⟩

theorem pendingNum_eq (h : AllLawful wl) :
    pendingNum wl = ((rowsOf wl).map Row.item).countP isPending ∧
      ((rowsOf wl).filter Row.listed).length = min (pendingNum wl) workreportFileLimit := by
  have hstatus : ∀ f ∈ eraseGone wl.checkedFiles, f.HasStatus :=
    fun f hf => (h.checked f (List.mem_of_mem_filter hf)).status
  constructor
  · rw [rowsOf, rowsFrom_items, List.countP_map]
    have hmark : (eraseGone wl.checkedFiles).countP (isPending ∘ markWaiting) =
        (eraseGone wl.checkedFiles).countP isPending :=
      List.countP_congr fun f hf => by
        rw [Function.comp_apply, markWaiting_isPending (hstatus f hf)]
    rw [hmark, List.countP_eq_length_filter, filter_pending_eraseGone,
      ← List.countP_eq_length_filter, pendingNum]
  · have hlen := congrArg List.length (listed_rows 0 (eraseGone wl.checkedFiles))
    rw [List.length_map, List.length_map, List.length_take, filter_pending_eraseGone, Nat.sub_zero,
      Nat.min_comm] at hlen
    rw [pendingNum, List.countP_eq_length_filter]
    exact hlen

theorem drains_listed (h : AllLawful wl) {env : ReportEnv} {blockHash : Bytes}
    {blockHeight : UInt64} {wl₁ : Workload Nat} {r : WorkReport Nat} {sig : Signature}
    (hg : genWorkReport sha256 mem env wl blockHash blockHeight false =
      some (.success, wl₁, some (r, sig))) :
    r.addedFiles = openList r.added ++ str "]" ∧ r.deletedFiles = openList r.deleted ++ str "]" ∧
      (r.added ++ r.deleted).Perm
        (((wl.checkedFiles.filter isPending).take workreportFileLimit).map markWaiting) ∧
      r.added.length + r.deleted.length = min (pendingNum wl) workreportFileLimit := by
  obtain ⟨-, -, haddText, hdelText, hadd, hdel⟩ := gen_rows h hg rfl
  have hperm := listed_perm (rowsOf wl)
  refine ⟨by rw [haddText, hadd], by rw [hdelText, hdel], ?_, ?_⟩
  · have hrows := listed_rows 0 (eraseGone wl.checkedFiles)
    rw [filter_pending_eraseGone, Nat.sub_zero] at hrows
    rw [hadd, hdel, ← hrows]
    exact hperm
  · have hlen := hperm.length_eq
    rw [List.length_append, List.length_map, (pendingNum_eq h).2] at hlen
    rw [hadd, hdel, hlen]

theorem drains_acknowledged (h : AllLawful wl) {env : ReportEnv} {upload : Bytes → CrustStatus}
    {blockHash : Bytes} {blockHeight : UInt64}
    (hup : genAndUploadWorkReport sha256 mem env upload wl blockHash blockHeight false =
      some (.success, wl')) :
    pendingNum wl' = pendingNum wl - min (pendingNum wl) workreportFileLimit := by
  unfold genAndUploadWorkReport at hup
  cases hg : genWorkReport sha256 mem env wl blockHash blockHeight false with
  | none =>
    rw [hg] at hup
    cases hup
  | some res =>
    obtain ⟨status, wl₁, report⟩ := res
    have hstatus : status = .success ∧ ∃ r sig, report = some (r, sig) ∧
        wl' = wl₁.handleReportResult := by
      cases status with
      | success =>
        cases report with
        | none =>
          obtain ⟨r, sig, hsome⟩ := success_has_report hg rfl
          cases hsome
        | some rs =>
          rw [hg] at hup
          simp only [Option.some.injEq, Prod.mk.injEq] at hup
          obtain ⟨hok, hwl⟩ := hup
          rw [if_pos hok] at hwl
          exact ⟨rfl, rs.1, rs.2, rfl, hwl.symm⟩
      | _ =>
        rw [hg] at hup
        simp at hup
    obtain ⟨rfl, r, sig, rfl, rfl⟩ := hstatus
    obtain ⟨hitems, hidx, -⟩ := gen_rows h hg rfl
    have hstat : ∀ f ∈ eraseGone wl.checkedFiles, f.HasStatus :=
      fun f hf => (h.checked f (List.mem_of_mem_filter hf)).status
    have hrows : ∀ r ∈ rowsOf wl, RowOk r := rowsFrom_ok hstat 0
    have hcount := countP_ack hrows (listed_pending hstat 0)
    obtain ⟨hnum, hlist⟩ := pendingNum_eq h
    have hafter : (rowsOf wl).map (fun r => if r.listed then FileLedger.ackItem r.item else r.item) =
        wl₁.handleReportResult.checkedFiles := by
      rw [← ack_rows, ← hitems, ← hidx, Workload.handleReportResult]
    rw [hafter, hlist, ← hnum, ← pendingNum] at hcount
    omega

theorem drains_settled (h : AllLawful wl) (hzero : pendingNum wl = 0) {f : FileItem Nat}
    (hf : f ∈ wl.checkedFiles) : f.origin = statusValid ↔ f.current = statusValid := by
  have hnews : isPending f = false := by
    have := List.countP_eq_zero.mp hzero f hf
    simpa using this
  have hlaw := (h.checked f hf).origin
  have hcur := hlaw.now_mem
  have horig := hlaw.before_mem
  simp only [isPending, Bool.or_eq_false_iff, Bool.and_eq_false_iff, beq_eq_false_iff_ne] at hnews
  obtain ⟨⟨⟨hvu, hvl⟩, hlv⟩, hdv⟩ := hnews
  simp only [statuses, List.mem_cons, List.not_mem_nil, or_false] at hcur horig
  constructor
  · intro ho
    rcases hcur with hc | hc | hc | hc
    · have hu := hlaw.unconfirmed hc
      rw [ho] at hu
      exact absurd hu (by decide)
    · exact hc
    · exact absurd hc (hlv.resolve_right fun hne => hne ho)
    · exact absurd hc (hdv.resolve_right fun hne => hne ho)
  · intro hc
    rcases horig with ho | ho | ho | ho
    · exact absurd ho (hvu.resolve_left fun hne => hne hc)
    · exact ho
    · exact absurd ho (hvl.resolve_left fun hne => hne hc)
    · have hd := hlaw.deleted ho
      rw [hc] at hd
      exact absurd hd (by decide)

theorem deleted_is_gone (h : AllLawful wl) (hzero : pendingNum wl = 0) {f : FileItem Nat}
    (hf : f ∈ wl.checkedFiles) (hd : f.current = statusDeleted) : isGone f = true := by
  have hnv : f.origin ≠ statusValid := by
    intro ho
    have hv := (drains_settled h hzero hf).mp ho
    rw [hd] at hv
    exact absurd hv (by decide)
  have horig := (h.checked f hf).origin.before_mem
  simp only [statuses, List.mem_cons, List.not_mem_nil, or_false] at horig
  simp only [isGone, (h.checked f hf).toStr, Bool.or_eq_true, Bool.and_eq_true, beq_iff_eq]
  change ((f.current = _ ∧ f.origin = _) ∨ (f.current = _ ∧ f.origin = _)) ∨
    (f.current = _ ∧ f.origin = _)
  simp only [hd, true_and]
  rcases horig with ho | ho | ho | ho
  · exact .inr ho
  · exact absurd ho hnv
  · exact .inl (.inl ho)
  · exact .inl (.inr ho)

theorem drains_swept (h : AllLawful wl) (hzero : pendingNum wl = 0) {env : ReportEnv}
    {blockHash : Bytes} {blockHeight : UInt64} {isUpgrading : Bool} {res : GenResult Nat}
    (hg : genWorkReport sha256 mem env wl blockHash blockHeight isUpgrading = some res)
    (hscan : ValidatePass.reachesScan mem env wl blockHeight = true) :
    ∀ f ∈ res.2.1.checkedFiles, f.current ≠ statusDeleted := by
  intro f hf hd
  have hchecked := ValidatePass.gen_checked hg
  rw [hscan, if_pos rfl] at hchecked
  rw [hchecked] at hf
  obtain ⟨e, he, rfl⟩ := List.mem_map.mp hf
  obtain ⟨hmem, hkept⟩ := List.mem_filter.mp he
  have hcur : (ValidatePass.mark isUpgrading e).current = e.current := by
    unfold ValidatePass.mark
    split_ifs
    · rfl
    · exact markWaiting_current (h.checked e hmem).status
  rw [hcur] at hd
  rw [deleted_is_gone h hzero hmem hd] at hkept
  cases hkept

theorem reachesScan_of_success {env : ReportEnv} {blockHash : Bytes} {blockHeight : UInt64}
    {isUpgrading : Bool} {res : GenResult Nat}
    (hg : genWorkReport sha256 mem env wl blockHash blockHeight isUpgrading = some res)
    (hs : res.1 = .success) : ValidatePass.reachesScan mem env wl blockHeight = true := by
  unfold genWorkReport at hg
  unfold ValidatePass.reachesScan
  cases hexp : heightExpired wl.reportHeight blockHeight with
  | true =>
    rw [if_pos hexp] at hg
    cases hg
    cases hs
  | false =>
    rw [if_neg (by simp [hexp])] at hg
    cases hcond : reportCondition wl with
    | success =>
      simp only [hcond] at hg
      obtain ⟨made, hc, rfl⟩ := Option.map_eq_some_iff.mp hg
      simp only [composeReport] at hc
      split at hc
      · cases hc
        cases hs
      · rename_i hsrd
        rw [not_not] at hsrd
        rw [hsrd]
        rfl
    | _ =>
      simp only [hcond] at hg
      cases hg
      cases hs

/-- Every file list drains that is reachable when the documents of an upgrade bring entries with
lawful statuses. -/
theorem pending_drains (h : Reachable sha256 mem LawfulEntry wl) : Drains sha256 mem wl where
  listed _ _ _ _ _ _ hg := drains_listed h.lawful hg
  acknowledged _ _ _ _ _ hup := drains_acknowledged h.lawful hup
  settled hzero _ hf := drains_settled h.lawful hzero hf
  swept hzero _ _ _ _ _ hg hdone := by
    have hscan := hdone.elim (reachesScan_of_success hg) id
    exact drains_swept h.lawful hzero hg hscan

end

/-! ### A file of its own and a file of a document -/

def documentFiles (status : Bytes) : JSON :=
  .array [.object [(fileHash, .hash zeroHash), (fileOldSize, .integral 5), (fileStatus, .string status)]]

theorem pending_drains_abc :
    ∃ t, Reachable Sha256.sha256 ⟨fun _ _ => 0⟩ LawfulEntry t ∧ pendingNum t = 1 ∧
      Drains Sha256.sha256 ⟨fun _ _ => 0⟩ (t.restoreFile id (documentFiles (str "100"))) := by
  have hrun : ((Runs.run smallStep emptyWorkload sealAndConfirm).map pendingNum) = some 1 := by
    decide +kernel
  obtain ⟨t, ht, hnum⟩ := Option.map_eq_some_iff.mp hrun
  have hreach : Reachable Sha256.sha256 ⟨fun _ _ => 0⟩ LawfulEntry t := reachable_run (.init _ _) ht
  have hlawful : ∀ j ∈ (documentFiles (str "100")).loopRange, LawfulEntry j := by
    intro j hj
    rw [List.mem_singleton.mp hj]
    exact ⟨⟨str "100", rfl, rfl⟩, ⟨by decide, by decide, by decide, by decide⟩,
      ⟨by decide, by decide, by decide, by decide⟩⟩
  exact ⟨t, hreach, hnum, pending_drains (hreach.step (.restoreFile id _ hlawful))⟩

/-- A document brings a file that the chain is taken to know as valid, and that never was confirmed:
nothing is pending, and the chain is not told. -/
theorem unconfirmed_valid_not_drained :
    ¬ ∀ wl, Reachable Sha256.sha256 ⟨fun _ _ => 0⟩ (fun _ => True) wl →
      Drains Sha256.sha256 ⟨fun _ _ => 0⟩ wl := by
  intro h
  have hdrains := h (emptyWorkload.restoreFile id (documentFiles (str "001")))
    ((Reachable.init _ _).step (.restoreFile id _ fun _ _ => trivial))
  have hcur := (hdrains.settled rfl _ List.mem_cons_self).mp rfl
  exact absurd hcur (by decide)

end CrustSworker.PendingDrain

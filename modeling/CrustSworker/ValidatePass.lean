import CrustSworker.FileStats

/-!
# A validation pass beside other calls

`validate_meaningful_file` with what happens at its `sched_check` points. The pass changes the
status of an entry at once, notes the index in `changed_idx2lost_um`, and brings the statistics
up to date in its last loop, from the indices alone. In between a file may be confirmed or
deleted and a work report may erase entries. A state here is the state of the pass together
with the entries it has changed, by the index they had then.
-/

namespace CrustSworker.ValidatePass

open FileStats OrderedMap Report Validator

variable {τ : Type}

def ltIdx (i j : Nat) : Bool := decide (i < j)

structure State (τ : Type) where
  pass : Pass τ
  touched : List (Nat × τ)

inductive Act where
  | check (env : CheckEnv) (i : Nat)
  | confirm (hash : Bytes)
  | delete (hash : Bytes)
  | gen (env : ReportEnv) (blockHash : Bytes) (blockHeight : UInt64) (isUpgrading : Bool)
  | ack

def noteTouched (wl wl' : Workload τ) (i : Nat) (touched : List (Nat × τ)) : List (Nat × τ) :=
  match wl.checkedFiles[i]?, wl'.checkedFiles[i]? with
  | some f, some f' => if f'.current = f.current then touched else insertKey ltIdx i f.tag touched
  | _, _ => touched

section
variable (sha256 : Bytes → Hash) (mem : Mem)

def onFiles (s : State τ) (a : FileStats.Act τ) : Option (State τ) :=
  (FileStats.step sha256 mem s.pass.wl a).map fun wl => { s with pass := { s.pass with wl := wl } }

/-- A pass that has returned does nothing more. -/
def step (s : State τ) (a : Act) : Option (State τ) :=
  if s.pass.stopped then none
  else
    match a with
    | .check env i =>
      (checkFile sha256 mem env s.pass i).map fun pass =>
        ⟨pass, noteTouched s.pass.wl pass.wl i s.touched⟩
    | .confirm hash => onFiles sha256 mem s (.confirm hash)
    | .delete hash => onFiles sha256 mem s (.delete hash)
    | .gen env blockHash blockHeight isUpgrading =>
      onFiles sha256 mem s (.gen env blockHash blockHeight isUpgrading)
    | .ack => onFiles sha256 mem s .ack

end

def start (wl : Workload τ) : State τ := ⟨⟨mergeNewFiles wl, [], false⟩, []⟩

def exitWl (s : State τ) : Workload τ :=
  if s.pass.stopped then s.pass.wl else settleChanged s.pass.wl s.pass.changed

structure ExitOk (s : State τ) : Prop where
  stats : StatsMatch (exitWl s)
  designates : s.pass.stopped = false → ∀ p ∈ s.pass.changed,
    ∃ f, s.pass.wl.checkedFiles[p.1]? = some f ∧ findKey p.1 s.touched = some f.tag

/-! ### When the pass keeps track -/

def oldStatus (lost : Bool) : UInt8 := if lost then statusValid else statusLost

def newStatus (lost : Bool) : UInt8 := if lost then statusLost else statusValid

def flips (v : Verdict) (f : FileItem τ) : Bool :=
  (decide (v = .failed) && decide (f.current = statusValid)) ||
    (decide (v = .passed) && decide (f.current = statusLost))

def sizeAt (files : List (FileItem τ)) (i : Nat) : Int := ((files[i]?).map FileItem.oldSize).getD 0

/-- As many files were set back as were found lost, and of the same size together. -/
def balanced (files : List (FileItem τ)) (changed : List (Nat × Bool)) : Bool :=
  decide ((changed.map fun p => if p.2 then (1 : Int) else -1).sum = 0) &&
    decide ((changed.map fun p => if p.2 then sizeAt files p.1 else -sizeAt files p.1).sum = 0)

/-- The report gets as far as the scan of the files. -/
def reachesScan (mem : Mem) (env : ReportEnv) (wl : Workload τ) (blockHeight : UInt64) : Bool :=
  !heightExpired wl.reportHeight blockHeight && decide (reportCondition wl = .success) &&
    encMalloc env.mallocSrd ((Workload.srdHashs mem wl.srdPath2hashs).length * hashLength)

/-- No status is changed twice, no changed entry is deleted, nothing is erased in front of one,
nothing is confirmed twice, and an offline host finds the changes in balance. -/
def keepsTrack (sha256 : Bytes → Hash) (mem : Mem) (s : State τ) : Act → Bool
  | .check env i =>
    match s.pass.wl.checkedFiles[i]? with
    | none => true
    | some f =>
      match judgeFile sha256 mem env f with
      | none => true
      | some v =>
        if v = .offline then balanced s.pass.wl.checkedFiles s.pass.changed
        else !flips v f || (findKey i s.pass.changed).isNone
  | .confirm hash => findsUnconfirmed s.pass.wl hash
  | .delete hash =>
    match s.pass.wl.checkedFiles.findIdx? (Storage.hasHash hash) with
    | none => true
    | some i => (findKey i s.pass.changed).isNone
  | .gen env _ blockHeight _ =>
    !reachesScan mem env s.pass.wl blockHeight ||
      s.pass.changed.all fun p =>
        (s.pass.wl.checkedFiles.take (p.1 + 1)).all fun f => !isGone f
  | .ack => true

/-! ### Numbers and sizes -/

inductive Column where
  | num
  | size

namespace Column

def amount : Column → FileItem τ → Int
  | .num, _ => 1
  | .size, f => f.oldSize

def spec : Column → Workload τ → UInt8 → Int
  | .num => specNum
  | .size => specSize

def weight (m : Column) (c : UInt8) (f : FileItem τ) : Int :=
  if f.current = c then m.amount f else 0

end Column

theorem statsMatch_columns {wl : Workload τ} :
    StatsMatch wl ↔ ∀ (m : Column), ∀ c ∈ counted, m.spec wl c = total (m.weight c) (entries wl) := by
  rw [statsMatch_iff]
  constructor
  · intro h m c hc
    cases m with
    | num => exact (h c hc).1
    | size => exact (h c hc).2
  · intro h c hc
    exact ⟨h .num c hc, h .size c hc⟩

theorem tracks_column {wl wl' : Workload τ} (h : Tracks wl wl') (m : Column) {c : UInt8}
    (hc : c ∈ counted) : m.spec wl' c - m.spec wl c =
      total (m.weight c) (entries wl') - total (m.weight c) (entries wl) := by
  cases m with
  | num => exact h.num c hc
  | size => exact h.size c hc

theorem spec_move (m : Column) (wl : Workload τ) {f : FileItem τ} (hf : EntryOk f) {c : UInt8}
    (hc : c ∈ counted) (a b : UInt8) :
    m.spec (wl.moveWlSpec a b f.oldSize) c =
      m.spec wl c + ((if a = c then m.amount f else 0) - if b = c then m.amount f else 0) := by
  cases m with
  | num =>
    have h := specNum_move wl hc a b hf.size
    simp only [Column.spec, Column.amount]
    omega
  | size =>
    have h := specSize_move wl hc a b hf.size
    simp only [Column.spec, Column.amount]
    omega

def pendAt (m : Column) (c : UInt8) (files : List (FileItem τ)) (p : Nat × Bool) : Int :=
  match files[p.1]? with
  | some f => m.weight c f - if oldStatus p.2 = c then m.amount f else 0
  | none => 0

def pend (m : Column) (c : UInt8) (files : List (FileItem τ)) (changed : List (Nat × Bool)) : Int :=
  (changed.map (pendAt m c files)).sum

theorem spec_settleChanged (m : Column) {wl : Workload τ} (hok : EntriesOk wl) {c : UInt8}
    (hc : c ∈ counted) (changed : List (Nat × Bool)) :
    m.spec (settleChanged wl changed) c = m.spec wl c + pend m c wl.checkedFiles changed := by
  unfold settleChanged pend
  induction changed generalizing wl with
  | nil => simp
  | cons p changed ih =>
    rw [List.foldl_cons, List.map_cons, List.sum_cons, pendAt]
    cases hp : wl.checkedFiles[p.1]? with
    | none =>
      rw [ih hok]
      dsimp only
      omega
    | some f =>
      have hf := hok.checked f (List.mem_of_getElem? hp)
      obtain ⟨info, hmove⟩ := wl.moveWlSpec_eq f.current (oldStatus p.2) f.oldSize
      have hspec := spec_move m wl hf hc f.current (oldStatus p.2)
      rw [hmove] at hspec
      have hok' : EntriesOk { wl with wlSpecInfo := info } := ⟨hok.checked, hok.new⟩
      have hrest := ih hok'
      dsimp only at hrest ⊢
      rw [← oldStatus, hmove, hrest, hspec, Column.weight]
      omega

theorem statsMatch_settled {wl : Workload τ} (hok : EntriesOk wl) (changed : List (Nat × Bool)) :
    StatsMatch (settleChanged wl changed) ↔ ∀ (m : Column), ∀ c ∈ counted,
      m.spec wl c + pend m c wl.checkedFiles changed = total (m.weight c) (entries wl) := by
  obtain ⟨info, hwl⟩ := settleChanged_eq wl changed
  have hentries : entries (settleChanged wl changed) = entries wl := by rw [hwl]; rfl
  rw [statsMatch_columns, hentries]
  constructor
  · intro h m c hc
    rw [← spec_settleChanged m hok hc]
    exact h m c hc
  · intro h m c hc
    rw [spec_settleChanged m hok hc]
    exact h m c hc

/-! ### Entries that stay -/

/-- The same entry as far as the last loop is concerned. -/
structure Same (f f' : FileItem τ) : Prop where
  tag : f'.tag = f.tag
  current : f'.current = f.current
  oldSize : f'.oldSize = f.oldSize

theorem Same.refl (f : FileItem τ) : Same f f := ⟨rfl, rfl, rfl⟩

theorem Same.trans {f g h : FileItem τ} (h₁ : Same f g) (h₂ : Same g h) : Same f h :=
  ⟨h₂.tag.trans h₁.tag, h₂.current.trans h₁.current, h₂.oldSize.trans h₁.oldSize⟩

theorem Same.set {f : FileItem τ} (hf : EntryOk f) {i : Nat} (hi : i < 3) (hne : currentStatus ≠ i)
    (c : UInt8) : Same f (f.setStatusChar i c) :=
  ⟨rfl, hf.current_other hi hne c, f.setStatusChar_oldSize i c⟩

theorem Same.amount {f f' : FileItem τ} (h : Same f f') (m : Column) : m.amount f' = m.amount f := by
  cases m with
  | num => rfl
  | size => exact h.oldSize

theorem Same.pendAt {files files' : List (FileItem τ)} {p : Nat × Bool} {f f' : FileItem τ}
    (h : Same f f') (hf : files[p.1]? = some f) (hf' : files'[p.1]? = some f') (m : Column)
    (c : UInt8) : pendAt m c files' p = pendAt m c files p := by
  simp only [ValidatePass.pendAt, hf, hf', Column.weight, h.amount, h.current]

theorem map_tag_modify (files : List (FileItem τ)) {g : FileItem τ → FileItem τ}
    (hg : ∀ f, (g f).tag = f.tag) (i : Nat) :
    (files.modify i g).map FileItem.tag = files.map FileItem.tag := by
  apply List.ext_getElem?
  intro j
  rw [List.getElem?_map, List.getElem?_map, List.getElem?_modify]
  cases files[j]? with
  | none => rfl
  | some f =>
    split_ifs
    · exact congrArg some (hg f)
    · rfl

theorem getElem?_modify_same {files : List (FileItem τ)} {g : FileItem τ → FileItem τ} {i j : Nat}
    {f : FileItem τ} (hj : files[j]? = some f) (hg : i = j → Same f (g f)) :
    ∃ f', (files.modify i g)[j]? = some f' ∧ Same f f' := by
  rw [List.getElem?_modify, hj]
  split_ifs with hij
  · exact ⟨g f, rfl, hg hij⟩
  · exact ⟨f, rfl, .refl f⟩

theorem confirmItem_tag (f : FileItem τ) : (Storage.confirmItem f).tag = f.tag := by
  unfold Storage.confirmItem
  split_ifs
  · rfl
  · rfl

theorem confirm_checked (wl : Workload τ) (hash : Bytes) :
    (Storage.storageConfirmFile wl hash).checkedFiles = wl.checkedFiles ∨
      ∃ i, (Storage.storageConfirmFile wl hash).checkedFiles =
        wl.checkedFiles.modify i Storage.confirmItem := by
  unfold Storage.storageConfirmFile
  split
  · rename_i i _
    exact .inr ⟨i, (entries_move _ _ _ _).1⟩
  · split
    · exact .inl (entries_move _ _ _ _).1
    · exact .inl rfl

section
variable {wl : Workload τ} {hash : Bytes}

theorem delete_found {i : Nat} (h : wl.checkedFiles.findIdx? (Storage.hasHash hash) = some i) :
    (Storage.storageDeleteFile wl hash).checkedFiles =
      Workload.setStatusAt wl.checkedFiles i currentStatus statusDeleted := by
  rw [Storage.storageDeleteFile, h]
  obtain ⟨info, hdrop⟩ := Storage.dropSpec_eq
    { wl with checkedFiles := Workload.setStatusAt wl.checkedFiles i currentStatus statusDeleted }
    wl.checkedFiles i
  exact congrArg Workload.checkedFiles hdrop

theorem delete_missing (h : wl.checkedFiles.findIdx? (Storage.hasHash hash) = none) :
    (Storage.storageDeleteFile wl hash).checkedFiles = wl.checkedFiles := by
  rw [Storage.storageDeleteFile, h]
  dsimp only
  split
  · rename_i i _
    obtain ⟨info, hdrop⟩ := Storage.dropSpec_eq { wl with newFiles := wl.newFiles.eraseIdx i }
      wl.newFiles i
    rw [hdrop]
  · rfl

end

def mark (isUpgrading : Bool) (f : FileItem τ) : FileItem τ :=
  if isUpgrading then f else f.setStatusChar waitingStatus f.current

theorem mark_same {f : FileItem τ} (hf : EntryOk f) (isUpgrading : Bool) :
    Same f (mark isUpgrading f) := by
  unfold mark
  split_ifs
  · exact .refl f
  · exact .set hf (by decide) (by decide) _

theorem mark_tag (isUpgrading : Bool) (f : FileItem τ) : (mark isUpgrading f).tag = f.tag := by
  unfold mark
  split_ifs
  · rfl
  · rfl

section
variable {sha256 : Bytes → Hash} {mem : Mem} {env : ReportEnv} {wl : Workload τ}
  {blockHash : Bytes} {blockHeight : UInt64} {isUpgrading : Bool} {res : GenResult τ}

theorem checked_signReport (wl : Workload τ) (r : WorkReport τ) :
    (signReport env wl r).2.1.checkedFiles = wl.checkedFiles := by
  obtain ⟨status, -, hfail⟩ | ⟨sig, hok⟩ := signReport_cases env wl r
  · rw [hfail]
  · rw [hok]

theorem gen_checked (h : genWorkReport sha256 mem env wl blockHash blockHeight isUpgrading = some res) :
    res.2.1.checkedFiles =
      if reachesScan mem env wl blockHeight then
        (eraseGone wl.checkedFiles).map (mark isUpgrading)
      else wl.checkedFiles := by
  unfold genWorkReport at h
  unfold reachesScan
  cases hexp : heightExpired wl.reportHeight blockHeight with
  | true =>
    simp only [hexp, if_true] at h
    cases h
    rfl
  | false =>
    simp only [hexp, Bool.false_eq_true, if_false] at h
    cases hcond : reportCondition wl with
    | success =>
      simp only [hcond] at h
      obtain ⟨made, hc, rfl⟩ := Option.map_eq_some_iff.mp h
      simp only [composeReport] at hc
      simp only [Bool.not_false, decide_true, Bool.true_and]
      split_ifs at hc with hsrd hfiles
      · cases hc
        rw [if_pos hsrd]
        exact scanFiles_items isUpgrading (eraseGone wl.checkedFiles)
      · rw [if_pos hsrd]
        cases hhs : Workload.fileHashs (itemsAt (scanFiles isUpgrading
            (eraseGone wl.checkedFiles)).items (scanFiles isUpgrading
            (eraseGone wl.checkedFiles)).validIdx) with
        | none =>
          simp only [hhs] at hc
          cases hc
        | some hs =>
          simp only [hhs] at hc
          cases hc
          refine (checked_signReport _ _).trans ?_
          exact scanFiles_items isUpgrading (eraseGone wl.checkedFiles)
      · cases hc
        rw [if_neg hsrd]
        rfl
    | _ =>
      simp only [hcond] at h
      cases h
      rfl

theorem gen_new (h : genWorkReport sha256 mem env wl blockHash blockHeight isUpgrading = some res) :
    res.2.1.newFiles = wl.newFiles := by
  cases hp : heightExpired wl.reportHeight blockHeight with
  | true =>
    unfold genWorkReport at h
    rw [if_pos hp] at h
    cases h
    rfl
  | false =>
    rcases (genWorkReport_outcome hp h).settled with hs | hs
    · rw [hs]
      rfl
    · rw [hs]
      rfl

end

/-- Up to an index in front of which nothing is dropped, a filter leaves everything in place. -/
theorem filter_in_place {α : Type} {p : α → Bool} {l : List α} {i : Nat}
    (h : (l.take (i + 1)).all p = true) : (l.filter p)[i]? = l[i]? := by
  induction l generalizing i with
  | nil => rfl
  | cons a l ih =>
    rw [List.take_succ_cons, List.all_cons, Bool.and_eq_true] at h
    rw [List.filter_cons, if_pos h.1]
    cases i with
    | zero => rfl
    | succ i => exact ih h.2

theorem filter_not_earlier {α : Type} {p : α → Bool} {l : List α} {i : Nat} {b : α}
    (hb : (l.filter p)[i]? = some b) : b ∈ l.drop i := by
  induction l generalizing i with
  | nil => cases hb
  | cons a l ih =>
    rw [List.filter_cons] at hb
    by_cases ha : p a = true
    · rw [if_pos ha] at hb
      cases i with
      | zero =>
        cases hb
        exact List.mem_cons_self
      | succ i => exact ih hb
    · rw [if_neg ha] at hb
      have hlater := ih hb
      cases i with
      | zero => exact List.mem_cons_of_mem _ hlater
      | succ i =>
        rw [List.drop_succ_cons]
        rw [← List.drop_drop] at hlater
        exact List.mem_of_mem_drop hlater

theorem filter_moves_up {α : Type} {p : α → Bool} {l : List α} {i : Nat} {b : α}
    (h : (l.take (i + 1)).all p = false) (hb : (l.filter p)[i]? = some b) : b ∈ l.drop (i + 1) := by
  induction l generalizing i with
  | nil => cases hb
  | cons a l ih =>
    rw [List.take_succ_cons, List.all_cons, Bool.and_eq_false_iff] at h
    rw [List.drop_succ_cons]
    by_cases ha : p a = true
    · have htail := h.resolve_left (by simp [ha])
      rw [List.filter_cons, if_pos ha] at hb
      cases i with
      | zero => simp at htail
      | succ i => exact ih htail hb
    · rw [List.filter_cons, if_neg ha] at hb
      exact filter_not_earlier hb

/-! ### The state of a pass that keeps track -/

/-- Every noted index has the entry whose status was changed, once and not since, and the last
loop would bring the statistics up to date. -/
structure Good (s : State τ) : Prop where
  ok : EntriesOk s.pass.wl
  tags : (s.pass.wl.checkedFiles.map FileItem.tag).Nodup
  sorted : Sorted ltIdx s.pass.changed
  noted : ∀ p ∈ s.pass.changed, ∃ f, s.pass.wl.checkedFiles[p.1]? = some f ∧
    f.current = newStatus p.2 ∧ findKey p.1 s.touched = some f.tag
  stats : ∀ (m : Column), ∀ c ∈ counted,
    m.spec s.pass.wl c + pend m c s.pass.wl.checkedFiles s.pass.changed =
      total (m.weight c) (entries s.pass.wl)

structure Inv (s : State τ) : Prop where
  exitOk : ExitOk s
  good : s.pass.stopped = false → Good s

theorem isOrder_ltIdx : IsOrder ltIdx where
  irrefl k := by simp [ltIdx]
  trans a b c hab hbc := by
    simp only [ltIdx, decide_eq_true_eq] at hab hbc ⊢
    omega
  total a b hne hab := by
    simp only [ltIdx, decide_eq_true_eq, decide_eq_false_iff_not] at hab ⊢
    omega

section
variable {s : State τ}

theorem exitWl_running (hrun : s.pass.stopped = false) :
    exitWl s = settleChanged s.pass.wl s.pass.changed := by
  rw [exitWl, hrun]
  rfl

theorem Good.inv (h : Good s) (hrun : s.pass.stopped = false) : Inv s := by
  refine ⟨⟨?_, fun _ p hp => ?_⟩, fun _ => h⟩
  · rw [exitWl_running hrun]
    exact (statsMatch_settled h.ok _).mpr h.stats
  · obtain ⟨f, hf, -, htag⟩ := h.noted p hp
    exact ⟨f, hf, htag⟩

theorem ExitOk.columns (h : ExitOk s) (hok : EntriesOk s.pass.wl) (hrun : s.pass.stopped = false)
    (m : Column) {c : UInt8} (hc : c ∈ counted) :
    m.spec s.pass.wl c + pend m c s.pass.wl.checkedFiles s.pass.changed =
      total (m.weight c) (entries s.pass.wl) := by
  have hstats := h.stats
  rw [exitWl_running hrun] at hstats
  exact (statsMatch_settled hok _).mp hstats m c hc

theorem Good.find (h : Good s) {i : Nat} {lost : Bool} (hi : findKey i s.pass.changed = some lost) :
    ∃ f, s.pass.wl.checkedFiles[i]? = some f ∧ f.current = newStatus lost ∧
      findKey i s.touched = some f.tag :=
  h.noted (i, lost) (mem_of_findKey hi)

def onWl (s : State τ) (wl : Workload τ) : State τ := { s with pass := { s.pass with wl := wl } }

theorem Good.of_tracks (h : Good s) {wl' : Workload τ} (ht : Tracks s.pass.wl wl')
    (htags : (wl'.checkedFiles.map FileItem.tag).Nodup)
    (hsame : ∀ p ∈ s.pass.changed, ∀ f, s.pass.wl.checkedFiles[p.1]? = some f →
      f.current = newStatus p.2 → ∃ f', wl'.checkedFiles[p.1]? = some f' ∧ Same f f') :
    Good (onWl s wl') where
  ok := ht.ok
  tags := htags
  sorted := h.sorted
  noted := by
    intro p hp
    obtain ⟨f, hf, hcur, htag⟩ := h.noted p hp
    obtain ⟨f', hf', hff⟩ := hsame p hp f hf hcur
    exact ⟨f', hf', hff.current.trans hcur, hff.tag.symm ▸ htag⟩
  stats := by
    intro m c hc
    have hpend : pend m c wl'.checkedFiles s.pass.changed =
        pend m c s.pass.wl.checkedFiles s.pass.changed := by
      refine congrArg List.sum (List.map_congr_left fun p hp => ?_)
      obtain ⟨f, hf, hcur, -⟩ := h.noted p hp
      obtain ⟨f', hf', hff⟩ := hsame p hp f hf hcur
      exact hff.pendAt hf hf' m c
    have hbefore := h.stats m c hc
    have htrack := tracks_column ht m hc
    have hgoal : m.spec wl' c + pend m c wl'.checkedFiles s.pass.changed =
        total (m.weight c) (entries wl') := by
      rw [hpend]
      omega
    exact hgoal

end

theorem newStatus_ne_unconfirmed (lost : Bool) : newStatus lost ≠ statusUnconfirmed := by
  cases lost with
  | false => decide
  | true => decide

/-! ### Confirming, deleting and reporting -/

section
variable {s : State τ}

theorem good_confirm (h : Good s) {hash : Bytes} (hu : findsUnconfirmed s.pass.wl hash = true) :
    Good (onWl s (Storage.storageConfirmFile s.pass.wl hash)) := by
  refine h.of_tracks (tracks_confirm h.ok hu) ?_ fun p _ f hf hcur => ?_
  · rcases confirm_checked s.pass.wl hash with hsame | ⟨i, hmod⟩
    · rw [hsame]
      exact h.tags
    · rw [hmod, map_tag_modify _ confirmItem_tag]
      exact h.tags
  · rcases confirm_checked s.pass.wl hash with hsame | ⟨i, hmod⟩
    · rw [hsame]
      exact ⟨f, hf, .refl f⟩
    · rw [hmod]
      refine getElem?_modify_same hf fun _ => ?_
      have hkeep : Storage.confirmItem f = f := if_neg (hcur ▸ newStatus_ne_unconfirmed p.2)
      rw [hkeep]
      exact .refl f

theorem confirm_breaks (h : Good s) (hrun : s.pass.stopped = false) {hash : Bytes}
    (hexit : ExitOk (onWl s (Storage.storageConfirmFile s.pass.wl hash))) :
    findsUnconfirmed s.pass.wl hash = true := by
  by_contra hu
  obtain ⟨hc₁, hn₁, hspec⟩ := confirm_counts_twice h.ok (Bool.not_eq_true _ ▸ hu)
  have hok : EntriesOk (Storage.storageConfirmFile s.pass.wl hash) :=
    ⟨by rw [hc₁]; exact h.ok.checked, by rw [hn₁]; exact h.ok.new⟩
  have hbefore := h.stats .num statusValid (by decide)
  have hafter := hexit.columns hok hrun .num (c := statusValid) (by decide)
  simp only [onWl, Column.spec, entries, hc₁, hn₁, hspec] at hbefore hafter
  omega

theorem good_delete (h : Good s) {hash : Bytes}
    (hfree : ∀ i, s.pass.wl.checkedFiles.findIdx? (Storage.hasHash hash) = some i →
      findKey i s.pass.changed = none) :
    Good (onWl s (Storage.storageDeleteFile s.pass.wl hash)) := by
  cases hi : s.pass.wl.checkedFiles.findIdx? (Storage.hasHash hash) with
  | none =>
    have hsame := delete_missing hi
    refine h.of_tracks (tracks_delete h.ok hash) ?_ fun p _ f hf _ => ?_
    · rw [hsame]
      exact h.tags
    · rw [hsame]
      exact ⟨f, hf, .refl f⟩
  | some i =>
    have hmod := delete_found hi
    refine h.of_tracks (tracks_delete h.ok hash) ?_ fun p hp f hf _ => ?_
    · rw [hmod, Workload.setStatusAt, map_tag_modify _ fun f => f.setStatusChar_tag _ _]
      exact h.tags
    · rw [hmod]
      refine getElem?_modify_same hf fun heq => ?_
      have hfound := findKey_of_mem isOrder_ltIdx h.sorted hp
      rw [← heq, hfree i hi] at hfound
      cases hfound

end

section
variable (files : List (FileItem τ)) (g : FileItem τ → FileItem τ) {i : Nat}

theorem pendAt_modify {p : Nat × Bool} (hp : p.1 ≠ i) (m : Column) (c : UInt8) :
    pendAt m c (files.modify i g) p = pendAt m c files p := by
  rw [pendAt, List.getElem?_modify_ne g files (Ne.symm hp), pendAt]

theorem pend_note {changed : List (Nat × Bool)} (hs : Sorted ltIdx changed) (lost : Bool)
    (m : Column) (c : UInt8) :
    pend m c (files.modify i g) (insertKey ltIdx i lost changed) +
        ((findKey i changed).map fun before => pendAt m c files (i, before)).getD 0 =
      pend m c files changed + pendAt m c (files.modify i g) (i, lost) :=
  sum_insertKey isOrder_ltIdx hs (fun _ _ hp => pendAt_modify files g hp m c) lost

end

section
variable {s : State τ}

theorem newStatus_counted (lost : Bool) : newStatus lost ∈ counted := by
  cases lost with
  | false => decide
  | true => decide

theorem oldStatus_ne_newStatus (lost : Bool) : oldStatus lost ≠ newStatus lost := by
  cases lost with
  | false => decide
  | true => decide

theorem delete_breaks (h : Good s) (hrun : s.pass.stopped = false) {hash : Bytes} {i : Nat}
    (hi : s.pass.wl.checkedFiles.findIdx? (Storage.hasHash hash) = some i)
    (hexit : ExitOk (onWl s (Storage.storageDeleteFile s.pass.wl hash))) :
    findKey i s.pass.changed = none := by
  cases hnote : findKey i s.pass.changed with
  | none => rfl
  | some lost =>
    obtain ⟨f, hf, hcur, -⟩ := h.find hnote
    have hfok := h.ok.checked f (List.mem_of_getElem? hf)
    have ht := tracks_delete h.ok hash
    have hc := newStatus_counted lost
    have hbefore := h.stats .num _ hc
    have hafter := hexit.columns ht.ok hrun .num hc
    have htrack := tracks_column ht .num hc
    have hpend := pend_note s.pass.wl.checkedFiles
      (fun f => f.setStatusChar currentStatus statusDeleted) (i := i) h.sorted lost .num
      (newStatus lost)
    have hdead : ((s.pass.wl.checkedFiles.modify i fun f =>
        f.setStatusChar currentStatus statusDeleted)[i]?) =
          some (f.setStatusChar currentStatus statusDeleted) := by
      rw [List.getElem?_modify_eq, hf]
      rfl
    have hne : statusDeleted ≠ newStatus lost := counted_ne_deleted hc
    rw [insertKey_found isOrder_ltIdx h.sorted hnote, hnote, Option.map_some, Option.getD_some] at hpend
    simp only [pendAt, hf, hdead, Column.weight, Column.amount, hcur, hfok.current_set, if_true,
      if_neg hne, if_neg (oldStatus_ne_newStatus lost)] at hpend
    simp only [onWl, delete_found hi, Workload.setStatusAt] at hafter
    omega

theorem ackFiles_same (idxs : List Nat) {files : List (FileItem τ)} (hok : ∀ f ∈ files, EntryOk f) :
    (idxs.foldl Workload.ackFile files).map FileItem.tag = files.map FileItem.tag ∧
      ∀ (j : Nat) (f : FileItem τ), files[j]? = some f →
        ∃ f', (idxs.foldl Workload.ackFile files)[j]? = some f' ∧ Same f f' := by
  induction idxs generalizing files with
  | nil => exact ⟨rfl, fun j f hf => ⟨f, hf, .refl f⟩⟩
  | cons i idxs ih =>
    obtain ⟨htags, hget⟩ := ih (ackFile_spec i hok).1
    refine ⟨?_, fun j f hf => ?_⟩
    · rw [List.foldl_cons, htags, Workload.ackFile,
        map_tag_modify _ fun f => f.setStatusChar_tag _ _]
    · have hfok := hok f (List.mem_of_getElem? hf)
      have hack : i = j → Same f (f.setStatusChar originStatus f.waiting) :=
        fun _ => .set hfok (by decide) (by decide) _
      obtain ⟨f₁, hf₁, h₁⟩ := getElem?_modify_same
        (g := fun f => f.setStatusChar originStatus f.waiting) hf hack
      obtain ⟨f₂, hf₂, h₂⟩ := hget j f₁ hf₁
      exact ⟨f₂, hf₂, h₁.trans h₂⟩

theorem good_ack (h : Good s) : Good (onWl s s.pass.wl.handleReportResult) := by
  obtain ⟨htags, hget⟩ := ackFiles_same s.pass.wl.reportedFilesIdx h.ok.checked
  refine h.of_tracks (tracks_ack h.ok) ?_ fun p _ f hf _ => hget p.1 f hf
  rw [Workload.handleReportResult, htags]
  exact h.tags

theorem good_gen {sha256 : Bytes → Hash} {mem : Mem} {env : ReportEnv} {blockHash : Bytes}
    {blockHeight : UInt64} {isUpgrading : Bool} {res : GenResult τ} (h : Good s)
    (hg : genWorkReport sha256 mem env s.pass.wl blockHash blockHeight isUpgrading = some res)
    (hkeep : reachesScan mem env s.pass.wl blockHeight = true → ∀ p ∈ s.pass.changed,
      ((s.pass.wl.checkedFiles.take (p.1 + 1)).all fun f => !isGone f) = true) :
    Good (onWl s res.2.1) := by
  have hchecked := gen_checked hg
  cases hscan : reachesScan mem env s.pass.wl blockHeight with
  | false =>
    rw [hscan, if_neg Bool.false_ne_true] at hchecked
    refine h.of_tracks (tracks_gen h.ok hg) ?_ fun p _ f hf _ => ?_
    · rw [hchecked]
      exact h.tags
    · rw [hchecked]
      exact ⟨f, hf, .refl f⟩
  | true =>
    rw [hscan, if_pos rfl] at hchecked
    refine h.of_tracks (tracks_gen h.ok hg) ?_ fun p hp f hf _ => ?_
    · have htags : ((eraseGone s.pass.wl.checkedFiles).map (mark isUpgrading)).map FileItem.tag =
          (eraseGone s.pass.wl.checkedFiles).map FileItem.tag := by
        rw [List.map_map]
        exact List.map_congr_left fun f _ => mark_tag isUpgrading f
      rw [hchecked, htags]
      exact h.tags.sublist (List.filter_sublist.map _)
    · have hplace : (eraseGone s.pass.wl.checkedFiles)[p.1]? = some f :=
        (filter_in_place (hkeep hscan p hp)).trans hf
      rw [hchecked, List.getElem?_map, hplace]
      exact ⟨_, rfl, mark_same (h.ok.checked f (List.mem_of_getElem? hf)) isUpgrading⟩

theorem gen_breaks {sha256 : Bytes → Hash} {mem : Mem} {env : ReportEnv} {blockHash : Bytes}
    {blockHeight : UInt64} {isUpgrading : Bool} {res : GenResult τ} (h : Good s)
    (hrun : s.pass.stopped = false)
    (hg : genWorkReport sha256 mem env s.pass.wl blockHash blockHeight isUpgrading = some res)
    (hexit : ExitOk (onWl s res.2.1)) (hscan : reachesScan mem env s.pass.wl blockHeight = true) :
    ∀ p ∈ s.pass.changed,
      ((s.pass.wl.checkedFiles.take (p.1 + 1)).all fun f => !isGone f) = true := by
  intro p hp
  by_contra hgone
  have hchecked := gen_checked hg
  rw [hscan, if_pos rfl] at hchecked
  obtain ⟨f, hf, -, htag⟩ := h.noted p hp
  obtain ⟨f', hf', htag'⟩ := hexit.designates hrun p hp
  simp only [onWl, hchecked, List.getElem?_map] at hf'
  obtain ⟨b, hb, rfl⟩ := Option.map_eq_some_iff.mp hf'
  have hlater : b ∈ s.pass.wl.checkedFiles.drop (p.1 + 1) :=
    filter_moves_up (Bool.not_eq_true _ ▸ hgone) hb
  -- The entry that has moved up would have the tag of the one it replaces.
  have hsametag : b.tag = f.tag := by
    have heq : some (mark isUpgrading b).tag = some f.tag := htag'.symm.trans htag
    rw [mark_tag] at heq
    exact Option.some.inj heq
  have hsplit : s.pass.wl.checkedFiles.drop p.1 = f :: s.pass.wl.checkedFiles.drop (p.1 + 1) := by
    obtain ⟨hlt, hget⟩ := List.getElem?_eq_some_iff.mp hf
    rw [List.drop_eq_getElem_cons hlt, hget]
  have hnodup : ((s.pass.wl.checkedFiles.drop p.1).map FileItem.tag).Nodup :=
    h.tags.sublist ((List.drop_sublist _ _).map _)
  rw [hsplit, List.map_cons, List.nodup_cons] at hnodup
  exact hnodup.1 (hsametag ▸ List.mem_map_of_mem hlater)

end

/-! ### Checking a file -/

theorem applyVerdict_tag (v : Verdict) (f : FileItem τ) : (applyVerdict v f).tag = f.tag := by
  unfold applyVerdict
  split
  · split_ifs
    · rfl
    · rfl
  · split_ifs
    · rfl
    · rfl
  · rfl

theorem applyVerdict_ok {v : Verdict} {f : FileItem τ} (h : EntryOk f) : EntryOk (applyVerdict v f) := by
  unfold applyVerdict
  split
  · split_ifs
    · exact h.set (by decide) _
    · exact h
  · split_ifs
    · exact h.set (by decide) _
    · exact h
  · exact h

theorem verdict_flips {v : Verdict} {f : FileItem τ} (h : flips v f = true) (i : Nat)
    (changed : List (Nat × Bool)) :
    ∃ lost, f.current = oldStatus lost ∧
      applyVerdict v f = f.setStatusChar currentStatus (newStatus lost) ∧
      noteChange v f i changed = insertKey ltIdx i lost changed := by
  simp only [flips, Bool.or_eq_true, Bool.and_eq_true, decide_eq_true_eq] at h
  obtain ⟨rfl, hcur⟩ | ⟨rfl, hcur⟩ := h
  · exact ⟨true, hcur, if_pos hcur, if_pos hcur⟩
  · exact ⟨false, hcur, if_pos hcur, if_pos hcur⟩

theorem verdict_keeps {v : Verdict} {f : FileItem τ} (h : flips v f = false) (i : Nat)
    (changed : List (Nat × Bool)) :
    applyVerdict v f = f ∧ noteChange v f i changed = changed := by
  simp only [flips, Bool.or_eq_false_iff, Bool.and_eq_false_iff, decide_eq_false_iff_not] at h
  cases v with
  | failed =>
    have hcur := h.1.resolve_left fun hv => hv rfl
    exact ⟨if_neg hcur, if_neg hcur⟩
  | passed =>
    have hcur := h.2.resolve_left fun hv => hv rfl
    exact ⟨if_neg hcur, if_neg hcur⟩
  | skipped => exact ⟨rfl, rfl⟩
  | offline => exact ⟨rfl, rfl⟩

def flipped (s : State τ) (v : Verdict) (i : Nat) (f : FileItem τ) (lost : Bool) : State τ :=
  ⟨⟨{ s.pass.wl with checkedFiles := s.pass.wl.checkedFiles.modify i (applyVerdict v) },
    insertKey ltIdx i lost s.pass.changed, s.pass.stopped⟩, insertKey ltIdx i f.tag s.touched⟩

section
variable {s : State τ} {v : Verdict} {i : Nat} {f : FileItem τ} {lost : Bool}

theorem flipped_ok (h : Good s) : EntriesOk (flipped s v i f lost).pass.wl :=
  ⟨entriesOk_modify (fun _ hf => applyVerdict_ok hf) h.ok.checked, h.ok.new⟩

/-- How a flip changes the two sides of a column: the last loop has the same to add as the
lists have gained, if the index was not noted before. -/
theorem flip_columns (h : Good s) (hf : s.pass.wl.checkedFiles[i]? = some f)
    (hold : f.current = oldStatus lost)
    (hnew : applyVerdict v f = f.setStatusChar currentStatus (newStatus lost)) (m : Column)
    (c : UInt8) :
    pend m c (flipped s v i f lost).pass.wl.checkedFiles (flipped s v i f lost).pass.changed +
        ((findKey i s.pass.changed).map fun before =>
          pendAt m c s.pass.wl.checkedFiles (i, before)).getD 0 =
      pend m c s.pass.wl.checkedFiles s.pass.changed +
        ((if newStatus lost = c then m.amount f else 0) - if oldStatus lost = c then m.amount f else 0) ∧
    total (m.weight c) (entries (flipped s v i f lost).pass.wl) =
      total (m.weight c) (entries s.pass.wl) +
        ((if newStatus lost = c then m.amount f else 0) -
          if oldStatus lost = c then m.amount f else 0) := by
  have hfok := h.ok.checked f (List.mem_of_getElem? hf)
  have hget : (s.pass.wl.checkedFiles.modify i (applyVerdict v))[i]? =
      some (f.setStatusChar currentStatus (newStatus lost)) := by
    rw [List.getElem?_modify_eq, hf, ← hnew]
    rfl
  have hamount : m.amount (f.setStatusChar currentStatus (newStatus lost)) = m.amount f := by
    cases m with
    | num => rfl
    | size => exact f.setStatusChar_oldSize _ _
  constructor
  · have hpend := pend_note s.pass.wl.checkedFiles (applyVerdict v) (i := i) h.sorted lost m c
    simp only [pendAt, hget, Column.weight, hfok.current_set, hamount] at hpend
    exact hpend
  · have hmod := total_modify (m.weight c) hf (applyVerdict v)
    simp only [hnew, Column.weight, hfok.current_set, hamount, hold] at hmod
    simp only [flipped, total_entries, hmod]
    omega

theorem good_flip (h : Good s) (hf : s.pass.wl.checkedFiles[i]? = some f)
    (hold : f.current = oldStatus lost)
    (hnew : applyVerdict v f = f.setStatusChar currentStatus (newStatus lost))
    (hfree : findKey i s.pass.changed = none) : Good (flipped s v i f lost) where
  ok := flipped_ok h
  tags := by
    have htags := map_tag_modify s.pass.wl.checkedFiles (applyVerdict_tag v) i
    exact htags ▸ h.tags
  sorted := h.sorted.insertKey isOrder_ltIdx i lost
  noted := by
    have hfok := h.ok.checked f (List.mem_of_getElem? hf)
    intro p hp
    rcases mem_insertKey hp with rfl | hp
    · refine ⟨f.setStatusChar currentStatus (newStatus lost), ?_, hfok.current_set _,
        findKey_insertKey_self _ _ _ _⟩
      simp only [flipped, List.getElem?_modify_eq, hf, ← hnew]
      rfl
    · have hne : p.1 ≠ i := by
        intro heq
        have hfound := findKey_of_mem isOrder_ltIdx h.sorted hp
        rw [heq, hfree] at hfound
        cases hfound
      obtain ⟨e, he, hcur, htag⟩ := h.noted p hp
      refine ⟨e, ?_, hcur, ?_⟩
      · simp only [flipped, List.getElem?_modify_ne _ _ (Ne.symm hne), he]
      · simp only [flipped, findKey_insertKey_ne ltIdx hne, htag]
  stats := by
    intro m c hc
    obtain ⟨hpend, htotal⟩ := flip_columns h hf hold hnew m c
    rw [hfree, Option.map_none, Option.getD_none, add_zero] at hpend
    have hbefore := h.stats m c hc
    have hspec : m.spec (flipped s v i f lost).pass.wl c = m.spec s.pass.wl c := by
      cases m with
      | num => rfl
      | size => rfl
    rw [hspec, hpend, htotal]
    omega

/-- Changed back, the entry is counted for a move it has not made. -/
theorem flip_breaks (h : Good s) (hrun : s.pass.stopped = false)
    (hf : s.pass.wl.checkedFiles[i]? = some f) (hold : f.current = oldStatus lost)
    (hnew : applyVerdict v f = f.setStatusChar currentStatus (newStatus lost))
    (hexit : ExitOk (flipped s v i f lost)) : findKey i s.pass.changed = none := by
  cases hnote : findKey i s.pass.changed with
  | none => rfl
  | some before =>
    obtain ⟨e, he, hcur, -⟩ := h.find hnote
    obtain rfl : f = e := Option.some.inj (hf.symm.trans he)
    have hc := newStatus_counted lost
    have hbefore := h.stats .num _ hc
    have hafter := hexit.columns (flipped_ok h) hrun .num hc
    obtain ⟨hpend, htotal⟩ := flip_columns h hf hold hnew .num (newStatus lost)
    have hopposite : oldStatus before = newStatus lost := by
      rw [hold] at hcur
      cases before with
      | false =>
        cases lost with
        | false => exact absurd hcur (by decide)
        | true => rfl
      | true =>
        cases lost with
        | false => rfl
        | true => exact absurd hcur (by decide)
    rw [hnote, Option.map_some, Option.getD_some] at hpend
    simp only [pendAt, hf, Column.weight, Column.amount, hold, hopposite, if_true,
      if_neg (oldStatus_ne_newStatus lost)] at hpend htotal
    have hspec : Column.num.spec (flipped s v i f lost).pass.wl (newStatus lost) =
        Column.num.spec s.pass.wl (newStatus lost) := rfl
    rw [hspec] at hafter
    omega

end

/-! ### An offline host -/

def netAt (m : Column) (files : List (FileItem τ)) (p : Nat × Bool) : Int :=
  let a := match m with
    | .num => 1
    | .size => sizeAt files p.1
  if p.2 then a else -a

def net (m : Column) (files : List (FileItem τ)) (changed : List (Nat × Bool)) : Int :=
  (changed.map (netAt m files)).sum

theorem balanced_iff (files : List (FileItem τ)) (changed : List (Nat × Bool)) :
    balanced files changed = true ↔ ∀ m : Column, net m files changed = 0 := by
  rw [balanced, Bool.and_eq_true, decide_eq_true_eq, decide_eq_true_eq]
  constructor
  · rintro ⟨hnum, hsize⟩ m
    cases m with
    | num => exact hnum
    | size => exact hsize
  · intro h
    exact ⟨h .num, h .size⟩

def direction (c : UInt8) : Int := if c = statusLost then 1 else if c = statusValid then -1 else 0

theorem pend_net {files : List (FileItem τ)} {changed : List (Nat × Bool)}
    (h : ∀ p ∈ changed, ∃ f, files[p.1]? = some f ∧ f.current = newStatus p.2) (m : Column)
    {c : UInt8} (hc : c ∈ counted) : pend m c files changed = direction c * net m files changed := by
  unfold pend net
  induction changed with
  | nil => simp
  | cons p changed ih =>
    obtain ⟨f, hf, hcur⟩ := h p List.mem_cons_self
    have hrest := ih fun q hq => h q (List.mem_cons_of_mem _ hq)
    have hhead : pendAt m c files p = direction c * netAt m files p := by
      have hamount : netAt m files p = if p.2 then m.amount f else -m.amount f := by
        cases m with
        | num => rfl
        | size => simp only [netAt, sizeAt, hf, Option.map_some, Option.getD_some, Column.amount]
      rw [hamount, pendAt, hf]
      simp only [Column.weight, hcur]
      simp only [counted, List.mem_cons, List.not_mem_nil, or_false] at hc
      rcases hc with rfl | rfl | rfl
      all_goals
        cases p.2
        all_goals simp [newStatus, oldStatus, direction, statusValid, statusLost, statusUnconfirmed]
    rw [List.map_cons, List.sum_cons, List.map_cons, List.sum_cons, hhead, hrest, mul_add]

theorem statsMatch_iff_balanced {s : State τ} (h : Good s) :
    StatsMatch s.pass.wl ↔ balanced s.pass.wl.checkedFiles s.pass.changed = true := by
  have hnoted : ∀ p ∈ s.pass.changed, ∃ f, s.pass.wl.checkedFiles[p.1]? = some f ∧
      f.current = newStatus p.2 := by
    intro p hp
    obtain ⟨f, hf, hcur, -⟩ := h.noted p hp
    exact ⟨f, hf, hcur⟩
  rw [statsMatch_columns, balanced_iff]
  constructor
  · intro hmatch m
    have hlost : statusLost ∈ counted := by decide
    have hsum := h.stats m statusLost hlost
    have hnow := hmatch m statusLost hlost
    have hpend := pend_net hnoted m hlost
    rw [direction, if_pos rfl, one_mul] at hpend
    omega
  · intro hnet m c hc
    have hsum := h.stats m c hc
    rw [pend_net hnoted m hc, hnet m, mul_zero, add_zero] at hsum
    exact hsum

/-! ### One step -/

section
variable {sha256 : Bytes → Hash} {mem : Mem} {s s' : State τ}

theorem noteTouched_flip {wl wl' : Workload τ} {i : Nat} {f f' : FileItem τ}
    (hf : wl.checkedFiles[i]? = some f) (hf' : wl'.checkedFiles[i]? = some f')
    (hne : f'.current ≠ f.current) (touched : List (Nat × τ)) :
    noteTouched wl wl' i touched = insertKey ltIdx i f.tag touched := by
  unfold noteTouched
  simp only [hf, hf', if_neg hne]

theorem noteTouched_same (wl : Workload τ) {wl' : Workload τ}
    (h : wl'.checkedFiles = wl.checkedFiles) (i : Nat) (touched : List (Nat × τ)) :
    noteTouched wl wl' i touched = touched := by
  unfold noteTouched
  rw [h]
  cases wl.checkedFiles[i]? with
  | none => rfl
  | some f => exact if_pos rfl

theorem check_flip {i : Nat} {f : FileItem τ} {v : Verdict} (h : Good s)
    (hrun : s.pass.stopped = false) (hf : s.pass.wl.checkedFiles[i]? = some f)
    (hflip : flips v f = true)
    (hs' : s' = ⟨{ s.pass with
        wl := { s.pass.wl with checkedFiles := s.pass.wl.checkedFiles.modify i (applyVerdict v) }
        changed := noteChange v f i s.pass.changed },
      noteTouched s.pass.wl
        { s.pass.wl with checkedFiles := s.pass.wl.checkedFiles.modify i (applyVerdict v) } i
        s.touched⟩) :
    ((findKey i s.pass.changed).isNone = true → Inv s') ∧
      (ExitOk s' → (findKey i s.pass.changed).isNone = true) := by
  obtain ⟨lost, hold, hnew, hnote⟩ := verdict_flips hflip i s.pass.changed
  have hfok := h.ok.checked f (List.mem_of_getElem? hf)
  have hget : (s.pass.wl.checkedFiles.modify i (applyVerdict v))[i]? =
      some (f.setStatusChar currentStatus (newStatus lost)) := by
    rw [List.getElem?_modify_eq, hf, ← hnew]
    rfl
  have hne : (f.setStatusChar currentStatus (newStatus lost)).current ≠ f.current := by
    rw [hfok.current_set, hold]
    exact Ne.symm (oldStatus_ne_newStatus lost)
  obtain rfl : s' = flipped s v i f lost := by
    rw [hs', noteTouched_flip hf hget hne, hnote]
    rfl
  constructor
  · intro hfree
    exact (good_flip h hf hold hnew (Option.isNone_iff_eq_none.mp hfree)).inv hrun
  · intro hexit
    exact Option.isNone_iff_eq_none.mpr (flip_breaks h hrun hf hold hnew hexit)

theorem check_step {env : CheckEnv} {i : Nat} (h : Good s) (hrun : s.pass.stopped = false)
    (hstep : (checkFile sha256 mem env s.pass i).map (fun pass =>
      (⟨pass, noteTouched s.pass.wl pass.wl i s.touched⟩ : State τ)) = some s') :
    (keepsTrack sha256 mem s (.check env i) = true → Inv s') ∧
      (ExitOk s' → keepsTrack sha256 mem s (.check env i) = true) := by
  unfold checkFile at hstep
  cases hf : s.pass.wl.checkedFiles[i]? with
  | none =>
    simp only [hf, Option.map_some, noteTouched_same s.pass.wl rfl] at hstep
    cases hstep
    have hkeeps : keepsTrack sha256 mem s (.check env i) = true := by simp only [keepsTrack, hf]
    exact ⟨fun _ => h.inv hrun, fun _ => hkeeps⟩
  | some f =>
    cases hv : judgeFile sha256 mem env f with
    | none =>
      simp only [hf, hv] at hstep
      cases hstep
    | some v =>
      by_cases hoff : v = .offline
      · subst hoff
        simp only [hf, hv, Option.map_some] at hstep
        cases hstep
        have hkeeps : keepsTrack sha256 mem s (.check env i) =
            balanced s.pass.wl.checkedFiles s.pass.changed := by
          simp only [keepsTrack, hf, hv, if_true]
        rw [hkeeps, ← statsMatch_iff_balanced h]
        refine ⟨fun hmatch => ⟨⟨⟨hmatch.num, hmatch.size⟩, fun hr => ?_⟩, fun hr => ?_⟩, fun hexit => ?_⟩
        · cases hr
        · cases hr
        · exact ⟨hexit.stats.num, hexit.stats.size⟩
      · have hpass : some (⟨{ s.pass with
              wl := { s.pass.wl with
                checkedFiles := s.pass.wl.checkedFiles.modify i (applyVerdict v) }
              changed := noteChange v f i s.pass.changed },
            noteTouched s.pass.wl { s.pass.wl with
              checkedFiles := s.pass.wl.checkedFiles.modify i (applyVerdict v) } i s.touched⟩ :
              State τ) = some s' := by
          rw [← hstep]
          cases v with
          | offline => exact absurd rfl hoff
          | _ => simp only [hf, hv, Option.map_some]
        have hkeeps : keepsTrack sha256 mem s (.check env i) =
            (!flips v f || (findKey i s.pass.changed).isNone) := by
          simp only [keepsTrack, hf, hv, if_neg hoff]
        rw [hkeeps]
        cases hflip : flips v f with
        | true => exact check_flip h hrun hf hflip (Option.some.inj hpass).symm
        | false =>
          obtain ⟨hsame, hnote⟩ := verdict_keeps hflip i s.pass.changed
          have hfiles : s.pass.wl.checkedFiles.modify i (applyVerdict v) = s.pass.wl.checkedFiles :=
            modify_fixed hf hsame
          rw [hfiles, hnote, noteTouched_same s.pass.wl rfl] at hpass
          cases hpass
          exact ⟨fun _ => h.inv hrun, fun _ => rfl⟩

theorem step_inv {a : Act} (hstep : step sha256 mem s a = some s') (h : Inv s) :
    (keepsTrack sha256 mem s a = true → Inv s') ∧
      (ExitOk s' → keepsTrack sha256 mem s a = true) := by
  unfold step at hstep
  cases hrun : s.pass.stopped with
  | true =>
    rw [hrun, if_pos rfl] at hstep
    cases hstep
  | false =>
    have hgood := h.good hrun
    rw [hrun, if_neg Bool.false_ne_true] at hstep
    cases a with
    | check env i => exact check_step hgood hrun hstep
    | confirm hash =>
      cases hstep
      exact ⟨fun hu => (good_confirm hgood hu).inv hrun, fun hexit => confirm_breaks hgood hrun hexit⟩
    | delete hash =>
      cases hstep
      simp only [keepsTrack]
      cases hi : s.pass.wl.checkedFiles.findIdx? (Storage.hasHash hash) with
      | none =>
        refine ⟨fun _ => (good_delete hgood fun i hi' => ?_).inv hrun, fun _ => rfl⟩
        rw [hi] at hi'
        cases hi'
      | some i =>
        refine ⟨fun hfree => (good_delete hgood fun j hj => ?_).inv hrun, fun hexit => ?_⟩
        · rw [hi] at hj
          cases hj
          exact Option.isNone_iff_eq_none.mp hfree
        · exact Option.isNone_iff_eq_none.mpr (delete_breaks hgood hrun hi hexit)
    | gen env blockHash blockHeight isUpgrading =>
      obtain ⟨wl, hwl, rfl⟩ := Option.map_eq_some_iff.mp hstep
      obtain ⟨res, hres, rfl⟩ := Option.map_eq_some_iff.mp hwl
      simp only [keepsTrack, Bool.or_eq_true, Bool.not_eq_true', List.all_eq_true (p := fun p : Nat × Bool => _)]
      refine ⟨fun hok => (good_gen hgood hres fun hscan => ?_).inv hrun, fun hexit => ?_⟩
      · exact hok.resolve_left (by rw [hscan]; exact Bool.noConfusion)
      · cases hscan : reachesScan mem env s.pass.wl blockHeight with
        | false => exact .inl rfl
        | true => exact .inr (gen_breaks hgood hrun hres hexit hscan)
    | ack =>
      cases hstep
      exact ⟨fun _ => (good_ack hgood).inv hrun, fun _ => rfl⟩

end

/-! ### Whole passes -/

theorem good_start {wl : Workload τ} (hok : EntriesOk wl) (hstats : StatsMatch wl)
    (htags : ((entries wl).map FileItem.tag).Nodup) : Good (start wl) where
  ok := (tracks_merge hok).ok
  tags := htags
  sorted := sorted_nil _
  noted := by
    intro p hp
    cases hp
  stats := by
    intro m c hc
    have hmatch := ((tracks_merge hok).inv ⟨hok.checked, hok.new, hstats⟩).stats
    have hcol := statsMatch_columns.mp hmatch m c hc
    have hnone : pend m c (start wl).pass.wl.checkedFiles (start wl).pass.changed = 0 := rfl
    rw [hnone, add_zero]
    exact hcol

end CrustSworker.ValidatePass

import CrustSworker.Runs
import CrustSworker.SurfaceFlags

/-!
# No report without validation

The main loop adds a proof after every pass, also when a validation was skipped or cut short;
what speaks against such a pass is the file flag, which the next report that is refused sets
back. The tests of a report and what it sets back are steps apart, with the main loop in
between. The main theorem bounds the reports by the passes really performed, in every run in
which an unreal pass costs a report of its own and a restore from upgrade data uses up the
proof it adds.
-/

namespace CrustSworker.Surface

open Report Upgrade UpgradeReport

variable {τ : Type}

/-! ### Where a report stands -/

namespace ReportPc

def refusing : ReportPc τ → Bool
  | .setHeight none | .setRestart none | .setFiles none | .reduce none => true
  | _ => false

/-- Behind the test of the file flag, which is still to be set. -/
def passed : ReportPc τ → Bool
  | .compose | .setHeight (some _) | .setRestart (some _) | .setFiles (some _) => true
  | _ => false

def clearing : ReportPc τ → Bool
  | .restart | .proof | .files | .compose | .setHeight _ | .setRestart _ => true
  | _ => false

def unrestarted : ReportPc τ → Bool
  | .proof | .files | .compose => true
  | _ => false

def signed : ReportPc τ → Bool
  | .setHeight (some _) | .setRestart (some _) | .setFiles (some _) | .reduce (some _) => true
  | _ => false

def proved : ReportPc τ → Bool
  | .files | .compose => true
  | pc => pc.signed

def reducing : ReportPc τ → Bool
  | .reduce (some _) => true
  | _ => false

def uploading : ReportPc τ → Bool
  | .upload _ _ => true
  | _ => false

end ReportPc

def State.jobIs (s : State τ) (p : ReportPc τ → Bool) : Bool := s.job.any fun j => p j.pc

/-- The restores from upgrade data that have added a proof and not taken one back. -/
def State.lent (s : State τ) : Nat :=
  s.asking.countP (fun c => c.asker.isRestore) +
    if s.job.any (fun j => j.call.asker.isRestore && !j.pc.uploading) then 1 else 0

/-- A pass that was not real costs a report: the one that is being refused, or the next one to
test the file flag. -/
def State.costs (s : State τ) : Bool :=
  s.jobIs ReportPc.refusing || (!s.wl.reportFiles && !s.jobIs ReportPc.passed)

section
variable (sha256 : Bytes → Hash) (mem : Mem) (verify : Verify)

/-- A pass that ends was real, or costs a report and is the only one that does. An upgrade
document asks for a report when none is made and nothing is owed, gets the lock next, and is
not expired. The metadata are restored while no report is on its way to set the flag back. -/
def earned (s : State τ) : Move τ → Bool
  | .loop i _ =>
    match s.loops[i]? with
    | some l => decide (l.pc ≠ .proof) || l.real || (decide (s.lent = 0 ∧ s.owed = 0) && s.costs)
    | none => true
  | .finish k =>
    match s.inside[k]? with
    | some (.restoreFromUpgrade tagOf call) =>
      (reportCall sha256 mem verify tagOf s.up call).isNone ||
        (s.job.all (fun j => j.pc.uploading) && decide (s.lent = 0 ∧ s.owed = 0))
    | some (.restoreMetadata _ _ _) => !s.jobIs ReportPc.clearing
    | _ => true
  | .lock k =>
    match s.asking[k]? with
    | some c => c.asker.isRestore || decide (s.lent = 0)
    | none => true
  | .report =>
    match s.job with
    | some ⟨c, .height⟩ => !c.asker.isRestore || !heightExpired s.wl.reportHeight c.blockHeight
    | _ => true
  | .genReport _ _ => decide (s.lent = 0)
  | _ => true

end

/-! ### The invariant -/

def State.due (s : State τ) : Nat :=
  if s.job.any (fun j => j.call.asker.isEcall && j.pc.signed) then 1 else 0

/-- One pass that was not real has given a proof; behind the settled flags of a report there is
another proof for that one. -/
structure Owed (s : State τ) : Prop where
  one : s.owed = 1
  lent : s.lent = 0
  costs : s.costs = true
  proof : 0 < s.wl.validatedProof
  second : s.jobIs ReportPc.reducing = true → s.wl.validatedProof = 2

structure Lent (s : State τ) : Prop where
  one : s.lent = 1
  proof : 0 < s.wl.validatedProof
  job : ∀ j, s.job = some j → j.call.asker.isRestore = true ∨ j.pc.uploading = true

structure ProofInv (s : State τ) : Prop where
  balance : s.wl.validatedProof + s.workReports.length ≤ s.passes + s.owed + s.lent + s.due
  proved : s.jobIs ReportPc.proved = true → 0 < s.wl.validatedProof
  owed : s.owed ≠ 0 → Owed s
  lent : s.lent ≠ 0 → Lent s
  restart : s.restored = true → s.wl.restartFlag = true ∧ s.jobIs ReportPc.unrestarted = false

theorem proofInv_init (keys : KeyPair) (pre : PubKey) :
    ProofInv (State.init keys pre : State τ) where
  balance := le_refl 0
  proved := fun h => by cases h
  owed := fun h => absurd rfl h
  lent := fun h => absurd rfl h
  restart := fun h => by cases h

/-- Everything the invariant looks at, apart from the flags, is the same. -/
structure SameLog (s s' : State τ) : Prop where
  job : s'.job = s.job
  lent : s'.lent = s.lent
  workReports : s'.workReports = s.workReports
  passes : s'.passes = s.passes
  owed : s'.owed = s.owed
  restored : s'.restored = s.restored

structure SameProof (wl wl' : Workload τ) : Prop where
  proof : wl'.validatedProof = wl.validatedProof
  files : wl.reportFiles = false → wl'.reportFiles = false
  restart : wl.restartFlag = true → wl'.restartFlag = true

theorem SameProof.of_flags {wl wl' : Workload τ}
    (h : flagsOf wl' = flagsOf wl ∨ flagsOf wl' = { flagsOf wl with files := false }) :
    SameProof wl wl' where
  proof := by
    rcases h with h | h
    · exact congrArg Flags.proof h
    · exact congrArg Flags.proof h
  files := by
    intro hf
    rcases h with h | h
    · exact (congrArg Flags.files h).trans hf
    · exact congrArg Flags.files h
  restart := by
    intro hr
    rcases h with h | h
    · exact (congrArg Flags.restart h).trans hr
    · exact (congrArg Flags.restart h).trans hr

section
variable {s s' : State τ}

theorem SameLog.jobIs (h : SameLog s s') (p : ReportPc τ → Bool) : s'.jobIs p = s.jobIs p := by
  rw [State.jobIs, h.job]
  rfl

theorem costs_mono (hj : s'.job = s.job) (hf : s.wl.reportFiles = false → s'.wl.reportFiles = false)
    (h : s.costs = true) : s'.costs = true := by
  have hjob : ∀ p, s'.jobIs p = s.jobIs p := fun p => by rw [State.jobIs, hj, State.jobIs]
  rw [State.costs, Bool.or_eq_true, Bool.and_eq_true, Bool.not_eq_true'] at h
  rw [State.costs, Bool.or_eq_true, Bool.and_eq_true, Bool.not_eq_true', hjob, hjob]
  exact h.imp_right fun hc => ⟨hf hc.1, hc.2⟩

theorem ProofInv.keep (h : ProofInv s) (hlog : SameLog s s') (hf : SameProof s.wl s'.wl) :
    ProofInv s' where
  balance := by
    have hdue : s'.due = s.due := by
      rw [State.due, hlog.job]
      rfl
    rw [hf.proof, hlog.workReports, hlog.passes, hlog.owed, hlog.lent, hdue]
    exact h.balance
  proved := by
    rw [hlog.jobIs, hf.proof]
    exact h.proved
  owed := by
    rw [hlog.owed]
    intro hne
    have ho := h.owed hne
    refine ⟨hlog.owed.trans ho.one, hlog.lent.trans ho.lent, costs_mono hlog.job hf.files ho.costs,
      hf.proof ▸ ho.proof, ?_⟩
    rw [hlog.jobIs, hf.proof]
    exact ho.second
  lent := by
    rw [hlog.lent]
    intro hne
    have hl := h.lent hne
    refine ⟨hlog.lent.trans hl.one, hf.proof ▸ hl.proof, ?_⟩
    rw [hlog.job]
    exact hl.job
  restart := by
    rw [hlog.restored, hlog.jobIs]
    intro hr
    exact ⟨hf.restart (h.restart hr).1, (h.restart hr).2⟩

end

/-! ### The steps of a report -/

section
variable {s s' : State τ} {c : ReportCall} {pc : ReportPc τ}

theorem jobIs_of_job (hj : s.job = some ⟨c, pc⟩) (p : ReportPc τ → Bool) : s.jobIs p = p pc := by
  rw [State.jobIs, hj]
  rfl

theorem jobIs_imp {p q : ReportPc τ → Bool} (hpq : ∀ pc, p pc = true → q pc = true)
    (h : s.jobIs p = true) : s.jobIs q = true := by
  unfold State.jobIs at h ⊢
  cases hj : s.job with
  | none =>
    rw [hj] at h
    cases h
  | some j =>
    rw [hj] at h
    exact hpq _ h

theorem lent_of_job (hj : s.job = some ⟨c, pc⟩) (hu : pc.uploading = false) :
    s.lent = s.asking.countP (fun c => c.asker.isRestore) + if c.asker.isRestore then 1 else 0 := by
  simp [State.lent, hj, hu]

theorem lent_of_none (hj : s.job = none) :
    s.lent = s.asking.countP (fun c => c.asker.isRestore) := by
  simp [State.lent, hj]

theorem lent_of_uploading (hj : s.job = some ⟨c, pc⟩) (hu : pc.uploading = true) :
    s.lent = s.asking.countP (fun c => c.asker.isRestore) := by
  simp [State.lent, hj, hu]

theorem due_of_job (hj : s.job = some ⟨c, pc⟩) :
    s.due = if c.asker.isEcall = true ∧ pc.signed = true then 1 else 0 := by
  simp [State.due, hj]

theorem due_of_none (hj : s.job = none) : s.due = 0 := by
  simp [State.due, hj]

theorem due_le_one (s : State τ) : s.due ≤ 1 := by
  unfold State.due
  split_ifs
  · exact le_refl 1
  · exact Nat.zero_le 1

theorem job_of_due (h : s.due ≠ 0) :
    ∃ c pc, s.job = some ⟨c, pc⟩ ∧ c.asker.isEcall = true ∧ pc.signed = true := by
  cases hj : s.job with
  | none => exact absurd (due_of_none hj) h
  | some j =>
    obtain ⟨c, pc⟩ := j
    rw [due_of_job hj] at h
    refine ⟨c, pc, rfl, ?_⟩
    by_contra hno
    exact h (if_neg hno)

theorem costs_of_job (hj : s.job = some ⟨c, pc⟩) :
    s.costs = true ↔ pc.refusing = true ∨ (s.wl.reportFiles = false ∧ pc.passed = false) := by
  simp [State.costs, jobIs_of_job hj]

theorem costs_of_none (hj : s.job = none) : s.costs = true ↔ s.wl.reportFiles = false := by
  simp [State.costs, State.jobIs, hj]

theorem ProofInv.lent_eq (h : ProofInv s) (hj : s.job = some ⟨c, pc⟩) (hu : pc.uploading = false) :
    s.asking.countP (fun c => c.asker.isRestore) = 0 ∧
      s.lent = if c.asker.isRestore then 1 else 0 := by
  have hl := lent_of_job hj hu
  by_cases h0 : s.lent = 0
  · rw [h0] at hl
    rw [h0]
    split_ifs at hl ⊢ with hr
    omega
  · have hlent := h.lent h0
    have hone := hlent.one
    have hr : c.asker.isRestore = true := by
      refine (hlent.job _ hj).resolve_right fun hup => ?_
      rw [hu] at hup
      cases hup
    rw [if_pos hr] at hl ⊢
    exact ⟨by omega, hone⟩

theorem ProofInv.goto (h : ProofInv s) (hj : s.job = some ⟨c, pc⟩) (wl : Workload τ)
    (pc' : ReportPc τ)
    (hp : wl.validatedProof = s.wl.validatedProof) (hu : pc.uploading = false)
    (hu' : pc'.uploading = false) (hs : pc'.signed = pc.signed)
    (hproved : pc'.proved = true → 0 < s.wl.validatedProof)
    (hcosts : s.costs = true → pc'.refusing = true ∨ (wl.reportFiles = false ∧ pc'.passed = false))
    (hred : s.costs = true → pc'.reducing = false)
    (hr : s.restored = true → wl.restartFlag = true ∧ pc'.unrestarted = false) :
    ProofInv ((s.withWl wl).goto c pc') := by
  have hj' : ((s.withWl wl).goto c pc').job = some ⟨c, pc'⟩ := rfl
  have hlent : ((s.withWl wl).goto c pc').lent = s.lent := by
    rw [lent_of_job hj hu, lent_of_job hj' hu']
    rfl
  have hdue : ((s.withWl wl).goto c pc').due = s.due := by
    rw [due_of_job hj, due_of_job hj', hs]
  have hp' : ((s.withWl wl).goto c pc').wl.validatedProof = s.wl.validatedProof := hp
  refine ⟨?_, ?_, fun hne => ?_, fun hne => ?_, fun hres => ?_⟩
  · rw [hp', hlent, hdue]
    exact h.balance
  · rw [jobIs_of_job hj', hp']
    exact hproved
  · have ho := h.owed hne
    refine ⟨ho.one, hlent.trans ho.lent, (costs_of_job hj').mpr (hcosts ho.costs),
      hp'.symm ▸ ho.proof, fun hsecond => ?_⟩
    rw [jobIs_of_job hj', hred ho.costs] at hsecond
    cases hsecond
  · rw [hlent] at hne
    have hl := h.lent hne
    refine ⟨hlent.trans hl.one, hp'.symm ▸ hl.proof, fun j hjob => ?_⟩
    cases hj'.symm.trans hjob
    exact .inl ((hl.job _ hj).resolve_right (by simp [hu]))
  · rw [jobIs_of_job hj']
    exact hr hres

theorem ProofInv.release (h : ProofInv s) (hj : s.job = some ⟨c, pc⟩) (wl : Workload τ)
    (hf : flagsOf wl = flagsOf s.wl) (hs : pc.signed = false) (hr : pc.refusing = false)
    (hl : pc.uploading = true ∨ c.asker.isRestore = false) :
    ProofInv { s.withWl wl with job := none } := by
  have hj' : ({ s.withWl wl with job := none } : State τ).job = none := rfl
  have hlent : ({ s.withWl wl with job := none } : State τ).lent = s.lent := by
    rw [lent_of_none hj']
    rcases hl with hu | hno
    · exact (lent_of_uploading hj hu).symm
    · cases hu : pc.uploading with
      | true => exact (lent_of_uploading hj hu).symm
      | false =>
        rw [lent_of_job hj hu, hno]
        rfl
  have hdue : s.due = 0 := by
    rw [due_of_job hj, hs]
    simp
  have hproof : wl.validatedProof = s.wl.validatedProof := congrArg Flags.proof hf
  have hfiles : wl.reportFiles = s.wl.reportFiles := congrArg Flags.files hf
  refine ⟨?_, fun hp => (by cases hp), fun hne => ?_, fun hne => ?_, fun hres => ?_⟩
  · have hbal := h.balance
    rw [hlent, due_of_none hj']
    change wl.validatedProof + s.workReports.length ≤ s.passes + s.owed + s.lent + 0
    omega
  · have ho := h.owed hne
    refine ⟨ho.one, hlent.trans ho.lent, (costs_of_none hj').mpr ?_, ?_, fun hred => by cases hred⟩
    · have hc := ((costs_of_job hj).mp ho.costs).resolve_left (by simp [hr])
      exact hfiles.trans hc.1
    · exact ho.proof.trans_eq hproof.symm
  · rw [hlent] at hne
    have hlend := h.lent hne
    exact ⟨hlent.trans hlend.one, hlend.proof.trans_eq hproof.symm, fun j hjob => by cases hjob⟩
  · exact ⟨(congrArg Flags.restart hf).trans (h.restart hres).1, rfl⟩

theorem ProofInv.refuse (h : ProofInv s) (hj : s.job = some ⟨c, .reduce none⟩) :
    ProofInv { s.withWl s.wl.reportReduceValidatedProof with job := none, owed := 0 } := by
  obtain ⟨hcount, hlent⟩ := h.lent_eq hj rfl
  have hzero : ({ s.withWl s.wl.reportReduceValidatedProof with
      job := none
      owed := 0 } : State τ).lent = 0 := by
    rw [lent_of_none rfl]
    exact hcount
  have hdue : s.due = 0 := by
    rw [due_of_job hj]
    simp [ReportPc.signed]
  have hbal := h.balance
  refine ⟨?_, fun hp => (by cases hp), fun hne => absurd rfl hne, fun hne => absurd hzero hne,
    fun hres => ⟨(h.restart hres).1, rfl⟩⟩
  rw [hzero, due_of_none rfl]
  change s.wl.reportReduceValidatedProof.validatedProof + s.workReports.length ≤ s.passes + 0 + 0 + 0
  have hreduce : s.wl.reportReduceValidatedProof.validatedProof = s.wl.validatedProof - 1 := by
    simp only [Workload.reportReduceValidatedProof]
    split_ifs with h0
    · rw [h0]
    · rfl
  by_cases ho : s.owed = 0
  · by_cases hl : s.lent = 0
    · omega
    · have hone := (h.lent hl).one
      have hpos := (h.lent hl).proof
      omega
  · have howed := h.owed ho
    have hone := howed.one
    have hl := howed.lent
    have hpos := howed.proof
    omega

theorem ProofInv.reduce (h : ProofInv s) {r : WorkReport τ} {sig : Signature}
    (hj : s.job = some ⟨c, .reduce (some (r, sig))⟩)
    (hwl : s'.wl = s.wl.reportReduceValidatedProof)
    (hjob : s'.job = none ∨ s'.job = some ⟨c, .upload r sig⟩) (ha : s'.asking = s.asking)
    (hw : s'.workReports = s.workReports) (hp : s'.passes = s.passes) (ho : s'.owed = s.owed)
    (hr : s'.restored = s.restored) : ProofInv s' := by
  obtain ⟨hcount, hlent⟩ := h.lent_eq hj rfl
  have hpos : 0 < s.wl.validatedProof := h.proved (by rw [jobIs_of_job hj]; rfl)
  have hreduce : s'.wl.validatedProof = s.wl.validatedProof - 1 := by
    rw [hwl]
    simp only [Workload.reportReduceValidatedProof]
    rw [if_neg (by omega)]
  have hfiles : s'.wl.reportFiles = s.wl.reportFiles := by
    rw [hwl]
    rfl
  have hzero : s'.lent = 0 := by
    rcases hjob with hjob | hjob
    · rw [lent_of_none hjob, ha]
      exact hcount
    · rw [lent_of_uploading hjob rfl, ha]
      exact hcount
  have hdue' : s'.due = 0 := by
    rcases hjob with hjob | hjob
    · exact due_of_none hjob
    · rw [due_of_job hjob]
      simp [ReportPc.signed]
  have hquiet : s'.jobIs ReportPc.proved = false ∧ s'.jobIs ReportPc.reducing = false ∧
      s'.jobIs ReportPc.unrestarted = false := by
    rcases hjob with hjob | hjob
    · rw [State.jobIs, State.jobIs, State.jobIs, hjob]
      exact ⟨rfl, rfl, rfl⟩
    · rw [jobIs_of_job hjob, jobIs_of_job hjob, jobIs_of_job hjob]
      exact ⟨rfl, rfl, rfl⟩
  have hbal := h.balance
  refine ⟨?_, fun hproved => ?_, fun hne => ?_, fun hne => absurd hzero hne, fun hres => ⟨?_, ?_⟩⟩
  · rw [hreduce, hw, hp, ho, hzero, hdue']
    -- At most one of the proof lent and the report due is there.
    have hsplit : s.lent + s.due ≤ 1 := by
      rw [hlent, due_of_job hj]
      cases c.asker with
      | ecall upload => simp [Asker.isRestore, Asker.isEcall, ReportPc.signed]
      | restore upload => simp [Asker.isRestore, Asker.isEcall]
      | handOver => simp [Asker.isRestore, Asker.isEcall]
    omega
  · rw [hquiet.1] at hproved
    cases hproved
  · rw [ho] at hne
    have howed := h.owed hne
    have htwo : s.wl.validatedProof = 2 := howed.second (by rw [jobIs_of_job hj]; rfl)
    have hc := ((costs_of_job hj).mp howed.costs).resolve_left Bool.false_ne_true
    refine ⟨ho.trans howed.one, hzero, ?_, by omega, fun hred => ?_⟩
    · rcases hjob with hjob | hjob
      · exact (costs_of_none hjob).mpr (hfiles.trans hc.1)
      · exact (costs_of_job hjob).mpr (.inr ⟨hfiles.trans hc.1, rfl⟩)
    · rw [hquiet.2.1] at hred
      cases hred
  · rw [hr] at hres
    rw [hwl]
    exact (h.restart hres).1
  · exact hquiet.2.2

theorem ProofInv.compose (h : ProofInv s) (hj : s.job = some ⟨c, .compose⟩) {wl : Workload τ}
    (hf : flagsOf wl = flagsOf s.wl) (made : Option (WorkReport τ × Signature)) :
    ProofInv (((s.withWl wl).signs c.asker (made.toList.map Prod.fst)).goto c (.setHeight made)) := by
  have hj' : (((s.withWl wl).signs c.asker (made.toList.map Prod.fst)).goto c
      (.setHeight made)).job = some ⟨c, .setHeight made⟩ := rfl
  have hproof : wl.validatedProof = s.wl.validatedProof := congrArg Flags.proof hf
  have hlent : (((s.withWl wl).signs c.asker (made.toList.map Prod.fst)).goto c
      (.setHeight made)).lent = s.lent := by
    rw [lent_of_job hj rfl, lent_of_job hj' rfl]
    rfl
  have hno : ¬ s.costs = true := by
    rw [costs_of_job hj]
    simp [ReportPc.refusing, ReportPc.passed]
  refine ⟨?_, fun _ => ?_, fun hne => absurd (h.owed hne).costs hno, fun hne => ?_, fun hr => ?_⟩
  · have hbal := h.balance
    have hdue : s.due = 0 := by
      rw [due_of_job hj]
      simp [ReportPc.signed]
    rw [hlent, due_of_job hj']
    change wl.validatedProof + (s.workReports ++ _).length ≤ s.passes + s.owed + s.lent + _
    rw [List.length_append, hproof]
    cases made with
    | none =>
      simp only [Option.toList_none, List.map_nil, ite_self, List.length_nil]
      omega
    | some p =>
      by_cases ha : c.asker.isEcall = true
      · rw [if_pos ha, if_pos ⟨ha, rfl⟩]
        simp only [Option.toList_some, List.map_cons, List.map_nil, List.length_singleton]
        omega
      · rw [if_neg ha, if_neg fun hc => ha hc.1, List.length_nil]
        omega
  · exact (h.proved (by rw [jobIs_of_job hj]; rfl)).trans_eq hproof.symm
  · rw [hlent] at hne
    have hl := h.lent hne
    refine ⟨hlent.trans hl.one, hl.proof.trans_eq hproof.symm, fun j hjob => ?_⟩
    cases hj'.symm.trans hjob
    exact .inl ((hl.job _ hj).resolve_right (by simp [ReportPc.uploading]))
  · have hseen := (h.restart hr).2
    rw [jobIs_of_job hj] at hseen
    cases hseen

theorem ProofInv.unrestore (h : ProofInv s) : ProofInv { s with restored := false } where
  balance := h.balance
  proved := h.proved
  owed := fun hne => by
    obtain ⟨hone, hlent, hcosts, hproof, hsecond⟩ := h.owed hne
    exact ⟨hone, hlent, hcosts, hproof, hsecond⟩
  lent := fun hne => by
    obtain ⟨hone, hproof, hjob⟩ := h.lent hne
    exact ⟨hone, hproof, hjob⟩
  restart := fun hr => by cases hr

variable {sha256 : Bytes → Hash} {mem : Mem}

theorem ProofInv.report (h : ProofInv s) (hj : s.job = some ⟨c, pc⟩)
    (hearned : pc = .height → c.asker.isRestore = true →
      heightExpired s.wl.reportHeight c.blockHeight = false)
    (hstep : reportStep sha256 mem s c pc = some s') : ProofInv s' := by
  have hcosts := costs_of_job hj
  have hseen : s.restored = true → pc.unrestarted = false :=
    fun hr => (jobIs_of_job hj _).symm.trans (h.restart hr).2
  have hproved : pc.proved = true → 0 < s.wl.validatedProof :=
    fun hp => h.proved ((jobIs_of_job hj _).trans hp)
  cases pc with
  | height =>
    simp only [reportStep] at hstep
    split_ifs at hstep with he
    · cases hstep
      refine h.release hj s.wl rfl rfl rfl (.inr ?_)
      by_contra hr
      rw [hearned rfl (by simpa using hr)] at he
      cases he
    · cases hstep
      refine h.goto hj s.wl _ rfl rfl rfl rfl (fun hp => by cases hp) ?_ (fun _ => rfl)
        (fun hr => ⟨(h.restart hr).1, rfl⟩)
      rw [hcosts]
      exact fun hc => .inr ⟨(hc.resolve_left Bool.false_ne_true).1, rfl⟩
  | restart =>
    simp only [reportStep] at hstep
    split_ifs at hstep with hflag
    · cases hstep
      exact h.goto hj s.wl _ rfl rfl rfl rfl (fun hp => by cases hp) (fun _ => .inl rfl)
        (fun _ => rfl) (fun hr => ⟨(h.restart hr).1, rfl⟩)
    · cases hstep
      refine h.goto hj s.wl _ rfl rfl rfl rfl (fun hp => by cases hp) ?_ (fun _ => rfl)
        (fun hr => absurd (h.restart hr).1 hflag)
      rw [hcosts]
      exact fun hc => .inr ⟨(hc.resolve_left Bool.false_ne_true).1, rfl⟩
  | proof =>
    simp only [reportStep] at hstep
    split_ifs at hstep with hpos
    · cases hstep
      refine h.goto hj s.wl _ rfl rfl rfl rfl (fun _ => hpos) ?_ (fun _ => rfl)
        (fun hr => by cases hseen hr)
      rw [hcosts]
      exact fun hc => .inr ⟨(hc.resolve_left Bool.false_ne_true).1, rfl⟩
    · cases hstep
      exact h.goto hj s.wl _ rfl rfl rfl rfl (fun hp => by cases hp) (fun _ => .inl rfl)
        (fun _ => rfl) (fun hr => by cases hseen hr)
  | files =>
    simp only [reportStep] at hstep
    split_ifs at hstep with hflag
    · cases hstep
      refine h.goto hj s.wl _ rfl rfl rfl rfl (fun _ => hproved rfl) ?_ (fun _ => rfl)
        (fun hr => by cases hseen hr)
      rw [hcosts, hflag]
      exact fun hc => absurd (hc.resolve_left Bool.false_ne_true).1 (by decide)
    · cases hstep
      exact h.goto hj s.wl _ rfl rfl rfl rfl (fun hp => by cases hp) (fun _ => .inl rfl)
        (fun _ => rfl) (fun hr => by cases hseen hr)
  | compose =>
    obtain ⟨r, hr, rfl⟩ := Option.map_eq_some_iff.mp hstep
    exact h.compose hj (flagsOf_composeReport hr) _
  | setHeight made =>
    cases hstep
    refine h.goto hj _ (.setRestart made) rfl rfl rfl (by cases made <;> rfl) ?_ ?_ (fun _ => rfl)
      (fun hr => ⟨(h.restart hr).1, rfl⟩)
    · cases made with
      | none => exact fun hp => by cases hp
      | some p => exact fun _ => hproved rfl
    · rw [hcosts]
      cases made with
      | none => exact fun _ => .inl rfl
      | some p => simp [ReportPc.refusing, ReportPc.passed]
  | setRestart made =>
    cases hstep
    refine h.unrestore.goto hj _ (.setFiles made) rfl rfl rfl
      (by cases made <;> rfl) ?_ ?_ (fun _ => rfl) (fun hr => by cases hr)
    · cases made with
      | none => exact fun hp => by cases hp
      | some p => exact fun _ => hproved rfl
    · refine fun hc => ?_
      have hc' := hcosts.mp hc
      cases made with
      | none => exact .inl rfl
      | some p => simp [ReportPc.refusing, ReportPc.passed] at hc'
  | setFiles made =>
    cases hstep
    refine h.goto hj _ (.reduce made) rfl rfl rfl (by cases made <;> rfl) ?_ ?_ ?_
      (fun hr => ⟨(h.restart hr).1, rfl⟩)
    · cases made with
      | none => exact fun hp => by cases hp
      | some p => exact fun _ => hproved rfl
    · rw [hcosts]
      cases made with
      | none => exact fun _ => .inl rfl
      | some p => simp [ReportPc.refusing, ReportPc.passed]
    · rw [hcosts]
      cases made with
      | none => exact fun _ => rfl
      | some p => simp [ReportPc.refusing, ReportPc.passed]
  | reduce made =>
    cases made with
    | none =>
      cases hstep
      exact h.refuse hj
    | some p =>
      obtain ⟨r, sig⟩ := p
      simp only [reportStep] at hstep
      cases ha : c.asker with
      | handOver =>
        rw [ha] at hstep
        cases hstep
        exact h.reduce hj rfl (.inl rfl) rfl rfl rfl rfl rfl
      | ecall upload =>
        rw [ha] at hstep
        cases hstep
        exact h.reduce hj rfl (.inr rfl) rfl rfl rfl rfl rfl
      | restore upload =>
        rw [ha] at hstep
        cases hstep
        exact h.reduce hj rfl (.inr rfl) rfl rfl rfl rfl rfl
  | upload r sig =>
    have hf : ∀ b : Prop, ∀ [Decidable b],
        flagsOf (if b then s.wl.handleReportResult else s.wl) = flagsOf s.wl := by
      intro b _
      split_ifs
      · rfl
      · rfl
    simp only [reportStep] at hstep
    cases ha : c.asker with
    | handOver =>
      rw [ha] at hstep
      cases hstep
    | ecall upload =>
      rw [ha] at hstep
      cases hstep
      exact h.release hj _ (hf _) rfl rfl (.inl rfl)
    | restore upload =>
      rw [ha] at hstep
      cases hstep
      exact h.release hj _ (hf _) rfl rfl (.inl rfl)

end

/-! ### The main loop -/

section
variable {sha256 : Bytes → Hash} {mem : Mem} {wl wl' : Workload τ} {env : LoopEnv} {l l' : Loop}

theorem loopStep_flags (h : loopStep sha256 mem env wl l = some (wl', l')) (hpc : l.pc ≠ .proof) :
    flagsOf wl' = flagsOf wl ∨ flagsOf wl' = { flagsOf wl with files := false } := by
  unfold loopStep at h
  split at h
  · split_ifs at h
    · cases h
      exact .inl rfl
    · cases h
      exact .inl rfl
  · dsimp only at h
    split_ifs at h
    · cases h
      unfold Validator.initFailed
      split_ifs
      · exact .inr rfl
      · exact .inl rfl
    · cases h
      exact .inl rfl
  · cases h
    exact .inl (flagsOf_settleChanged _ _)
  · split at h
    · cases h
    rename_i p hp
    split_ifs at h
    · cases h
      exact flagsOf_checkFile hp
    · cases h
      exact flagsOf_checkFile hp
  · split_ifs at h
    · cases h
      exact .inl rfl
    · cases h
      exact .inl rfl
  · obtain ⟨wl₁, hwl₁, hr⟩ := Option.map_eq_some_iff.mp h
    cases hr
    exact .inl (flagsOf_randomDelete hwl₁)
  · cases h
    exact .inl rfl
  · cases h
    exact .inl rfl
  · exact absurd ‹_› hpc

theorem loopStep_proof (h : loopStep sha256 mem env wl l = some (wl', l')) (hpc : l.pc = .proof) :
    wl' = wl.reportAddValidatedProof := by
  unfold loopStep at h
  rw [hpc] at h
  cases h
  rfl

theorem addProof_spec (wl : Workload τ) :
    wl.reportAddValidatedProof.validatedProof ≤ wl.validatedProof + 1 ∧
      0 < wl.reportAddValidatedProof.validatedProof ∧
      (0 < wl.validatedProof → wl.reportAddValidatedProof.validatedProof = 2) := by
  simp only [Workload.reportAddValidatedProof]
  split_ifs
  · omega
  · omega

theorem ProofInv.pass {s : State τ} (h : ProofInv s) {i : Nat}
    (hstep : loopStep sha256 mem env s.wl l = some (wl', l')) (hearned : l.pc = .proof →
      l.real = true ∨ (s.lent = 0 ∧ s.owed = 0 ∧ s.costs = true)) :
    ProofInv (passStep s i l wl' l') := by
  unfold passStep
  dsimp only
  by_cases hpc : l.pc = .proof
  · obtain ⟨hle, hpos, htwo⟩ := addProof_spec s.wl
    obtain rfl : wl' = s.wl.reportAddValidatedProof := loopStep_proof hstep hpc
    have hbal := h.balance
    have hreducing : s.jobIs ReportPc.reducing = true →
        s.wl.reportAddValidatedProof.validatedProof = 2 := by
      refine fun hr => htwo (h.proved (jobIs_imp (fun pc hp => ?_) hr))
      unfold ReportPc.reducing at hp
      split at hp
      · rfl
      · cases hp
    rw [if_neg (not_not.mpr hpc)]
    split_ifs with hreal
    · refine ⟨?_, fun _ => hpos, fun hne => ?_, fun hne => ?_, h.restart⟩
      · change s.wl.reportAddValidatedProof.validatedProof + s.workReports.length ≤
          s.passes + 1 + s.owed + s.lent + s.due
        omega
      · have ho := h.owed hne
        exact ⟨ho.one, ho.lent, costs_mono rfl id ho.costs, hpos, hreducing⟩
      · have hl := h.lent hne
        exact ⟨hl.one, hpos, hl.job⟩
    · obtain ⟨hlent, howed, hcosts⟩ := (hearned hpc).resolve_left hreal
      refine ⟨?_, fun _ => hpos, fun _ => ?_, fun hne => absurd hlent hne, h.restart⟩
      · change s.wl.reportAddValidatedProof.validatedProof + s.workReports.length ≤
          s.passes + (s.owed + 1) + s.lent + s.due
        omega
      · exact ⟨congrArg (· + 1) howed, hlent, costs_mono rfl id hcosts, hpos, hreducing⟩
  · rw [if_pos hpc]
    exact h.keep ⟨rfl, rfl, rfl, rfl, rfl, rfl⟩ (.of_flags (loopStep_flags hstep hpc))

end

/-! ### The ecalls -/

section
variable {sha256 : Bytes → Hash} {mem : Mem} {verify : Verify} {s s' : State τ}

theorem SameProof.of_status {wl wl' : Workload τ} {status : EncUpgradeStatus}
    (h : flagsOf wl' = { flagsOf wl with status := status }) : SameProof wl wl' where
  proof := congrArg Flags.proof h
  files := (congrArg Flags.files h).trans
  restart := (congrArg Flags.restart h).trans

theorem ProofInv.setStatus (h : ProofInv s) {wl : Workload τ} {status : EncUpgradeStatus}
    (hf : flagsOf wl = { flagsOf s.wl with status := status }) : ProofInv (s.withWl wl) :=
  h.keep ⟨rfl, rfl, rfl, rfl, rfl, rfl⟩ (.of_status hf)

theorem ProofInv.withWl (h : ProofInv s) {wl : Workload τ} (hf : flagsOf wl = flagsOf s.wl) :
    ProofInv (s.withWl wl) := h.keep ⟨rfl, rfl, rfl, rfl, rfl, rfl⟩ (.of_flags (.inl hf))

theorem clearing_of_unrestarted {pc : ReportPc τ} (h : pc.unrestarted = true) :
    pc.clearing = true := by
  unfold ReportPc.unrestarted at h
  split at h
  · rfl
  · rfl
  · rfl
  · cases h

theorem ProofInv.restoreMetadata (h : ProofInv s) {tagOf : Nat → τ} {env : Metadata.RestoreEnv}
    {data : Option Bytes} {r : CrustStatus × Workload τ}
    (hclear : s.jobIs ReportPc.clearing = false)
    (hr : Metadata.idRestoreMetadata mem tagOf env s.wl data = some r) :
    ProofInv { s.withWl r.2 with restored := s.restored || decide (r.1 = .success) } := by
  have hf := flagsOf_restoreMetadata hr
  have hrestart : r.2.restartFlag = (s.wl.restartFlag || decide (r.1 = .success)) :=
    congrArg Flags.restart hf
  have hk : ProofInv (s.withWl r.2) := by
    refine h.keep ⟨rfl, rfl, rfl, rfl, rfl, rfl⟩ ⟨congrArg Flags.proof hf,
      (congrArg Flags.files hf).trans, fun hset => ?_⟩
    exact hrestart.trans (by rw [hset]; rfl)
  have hseen : s.jobIs ReportPc.unrestarted = false := by
    cases hu : s.jobIs ReportPc.unrestarted with
    | false => rfl
    | true => exact (jobIs_imp (fun _ => clearing_of_unrestarted) hu).symm.trans hclear
  refine ⟨hk.balance, hk.proved, fun hne => ?_, fun hne => ?_, fun hor => ⟨?_, hseen⟩⟩
  · obtain ⟨hone, hlent, hcosts, hproof, hsecond⟩ := hk.owed hne
    exact ⟨hone, hlent, hcosts, hproof, hsecond⟩
  · obtain ⟨hone, hproof, hjob⟩ := hk.lent hne
    exact ⟨hone, hproof, hjob⟩
  · change r.2.restartFlag = true
    rw [hrestart]
    dsimp only at hor
    rw [Bool.or_eq_true] at hor ⊢
    exact hor.imp_left fun hres => (h.restart hres).1

theorem ProofInv.lend (h : ProofInv s) {wl : Workload τ} {total : Nat} {c : ReportCall}
    (hf : flagsOf wl = flagsOf s.wl.reportAddValidatedProof) (hr : c.asker.isRestore = true)
    (hjob : ∀ j, s.job = some j → j.pc.uploading = true) (hlent : s.lent = 0) (howed : s.owed = 0) :
    ProofInv { s with up := ⟨wl, total, []⟩, asking := s.asking ++ [c] } := by
  obtain ⟨hle, hpos, -⟩ := addProof_spec s.wl
  have hproof : wl.validatedProof = s.wl.reportAddValidatedProof.validatedProof :=
    congrArg Flags.proof hf
  have hone : ({ s with up := ⟨wl, total, []⟩, asking := s.asking ++ [c] } : State τ).lent = 1 := by
    simp only [State.lent, List.countP_append, List.countP_singleton, hr, if_true]
    rw [State.lent] at hlent
    omega
  have hbal := h.balance
  refine ⟨?_, fun _ => ?_, fun hne => absurd howed hne, fun _ => ⟨hone, ?_, ?_⟩, fun hres => ?_⟩
  · rw [hone]
    change wl.validatedProof + s.workReports.length ≤ s.passes + s.owed + 1 + s.due
    omega
  · exact hpos.trans_eq hproof.symm
  · exact hpos.trans_eq hproof.symm
  · exact fun j hj => .inr (hjob j hj)
  · exact ⟨(congrArg Flags.restart hf).trans (h.restart hres).1, (h.restart hres).2⟩

theorem ProofInv.body (h : ProofInv s) {e : Ecall τ} (hb : body sha256 mem verify s e = some s')
    (hmeta : ∀ env tagOf data, e = .restoreMetadata env tagOf data →
      s.jobIs ReportPc.clearing = false)
    (hearned : ∀ tagOf call, e = .restoreFromUpgrade tagOf call →
      reportCall sha256 mem verify tagOf s.up call = none ∨
        (s.job.all (fun j => j.pc.uploading) = true ∧ s.lent = 0 ∧ s.owed = 0)) : ProofInv s' := by
  cases e with
  | srdIncrease env path =>
    cases hb
    exact h.withWl (flagsOf_srdIncrease _ _ _ _)
  | srdDecrease answer change =>
    obtain ⟨r, hr, rfl⟩ := Option.map_eq_some_iff.mp hb
    exact h.withWl (flagsOf_srdDecrease hr)
  | srdUpdateMetadata answer hashs =>
    obtain ⟨wl, hwl, rfl⟩ := Option.map_eq_some_iff.mp hb
    exact h.withWl (flagsOf_srdUpdate hwl)
  | restoreMetadata env tagOf data =>
    obtain ⟨r, hr, rfl⟩ := Option.map_eq_some_iff.mp hb
    exact h.restoreMetadata (hmeta env tagOf data rfl) hr
  | genAndUploadWorkReport env upload blockHash blockHeight =>
    cases hb
    refine h.keep ⟨rfl, ?_, rfl, rfl, rfl, rfl⟩ (.of_flags (.inl rfl))
    simp [State.lent, Asker.isRestore]
  | genKeyPair env accountId =>
    cases hb
    exact h.withWl (flagsOf_genKeyPair _ _ _)
  | sealFile env tag treeText path =>
    obtain ⟨r, hr, rfl⟩ := Option.map_eq_some_iff.mp hb
    exact h.withWl (flagsOf_sealFile hr)
  | confirmFile hash =>
    cases hb
    exact h.withWl (flagsOf_confirm _ _)
  | deleteFile hash =>
    cases hb
    exact h.withWl (flagsOf_delete _ _)
  | enableUpgrade blockHeight =>
    simp only [Surface.body] at hb
    cases hb
    split_ifs
    · exact h.keep ⟨rfl, rfl, rfl, rfl, rfl, rfl⟩ (.of_flags (.inl rfl))
    · exact h
  | disableUpgrade =>
    cases hb
    exact h.setStatus rfl
  | restoreFromUpgrade tagOf call =>
    simp only [Surface.body] at hb
    have hcall := hearned tagOf call rfl
    split at hb
    · rename_i wl blockHash blockHeight heq
      cases hb
      obtain ⟨hjob, hlent, howed⟩ := hcall.resolve_left (by simp [heq])
      refine h.lend (flagsOf_reportCall heq) rfl (fun j hj => ?_) hlent howed
      rw [hj] at hjob
      exact hjob
    · rename_i heq
      obtain ⟨r, hr, rfl⟩ := Option.map_eq_some_iff.mp hb
      exact h.keep ⟨rfl, rfl, rfl, rfl, rfl, rfl⟩ (.of_flags (.inl (restoreFromUpgrade_flags heq hr)))
  | silent name hname =>
    cases hb
    exact h

/-! ### The hand-over -/

theorem ProofInv.start (h : ProofInv s) {c : ReportCall} (hj : s.job = none)
    (hjob : s'.job = some ⟨c, .height⟩) (hwl : s'.wl = s.wl) (hlent : s'.lent = s.lent)
    (hrestore : s.lent ≠ 0 → c.asker.isRestore = true) (hw : s'.workReports = s.workReports)
    (hp : s'.passes = s.passes) (ho : s'.owed = s.owed) (hr : s'.restored = s.restored) :
    ProofInv s' := by
  have hdue : s'.due = s.due := by
    rw [due_of_job hjob, due_of_none hj]
    simp [ReportPc.signed]
  refine ⟨?_, fun hproved => ?_, fun hne => ?_, fun hne => ?_, fun hres => ?_⟩
  · rw [hwl, hw, hp, ho, hlent, hdue]
    exact h.balance
  · rw [jobIs_of_job hjob] at hproved
    cases hproved
  · rw [ho] at hne
    have howed := h.owed hne
    refine ⟨ho.trans howed.one, hlent.trans howed.lent, (costs_of_job hjob).mpr (.inr ⟨?_, rfl⟩),
      hwl ▸ howed.proof, fun hred => ?_⟩
    · rw [hwl]
      exact (costs_of_none hj).mp howed.costs
    · rw [jobIs_of_job hjob] at hred
      cases hred
  · rw [hlent] at hne
    have hl := h.lent hne
    refine ⟨hlent.trans hl.one, hwl ▸ hl.proof, fun j hj' => ?_⟩
    cases hjob.symm.trans hj'
    exact .inl (hrestore hne)
  · rw [hr] at hres
    rw [hwl, jobIs_of_job hjob]
    exact ⟨(h.restart hres).1, rfl⟩

theorem job_of_unlocked (h : ¬ s.locked = true) : s.job = none := by
  simp only [State.locked, Bool.or_eq_true, not_or, Option.isSome_iff_ne_none, not_not] at h
  exact h.1

theorem ProofInv.lock (h : ProofInv s) {k : Nat} {c : ReportCall} (hc : s.asking[k]? = some c)
    (hlock : ¬ s.locked = true) (hearned : c.asker.isRestore = true ∨ s.lent = 0) :
    ProofInv ({ s with asking := s.asking.eraseIdx k }.goto c .height) := by
  have hj := job_of_unlocked hlock
  obtain ⟨hk, rfl⟩ := List.getElem?_eq_some_iff.mp hc
  have hcount := (List.getElem_cons_eraseIdx_perm hk).countP_eq (fun c => c.asker.isRestore)
  rw [List.countP_cons] at hcount
  refine h.start hj rfl rfl ?_ (fun hne => hearned.resolve_right hne) rfl rfl rfl rfl
  rw [lent_of_job rfl rfl, lent_of_none hj, ← hcount]
  rfl

theorem ProofInv.genStep (h : ProofInv s) (env : GenDataEnv) (blockHeight : UInt64)
    (hlock : ¬ s.locked = true) (hlent : s.lent = 0) : ProofInv (genStep env s blockHeight) := by
  have hj := job_of_unlocked hlock
  unfold Surface.genStep
  split
  · exact h
  · refine h.start hj rfl rfl ?_ (fun hne => absurd hlent hne) rfl rfl rfl rfl
    rw [lent_of_job rfl rfl, lent_of_none hj]
    rfl

variable {floatText : Bytes → Bytes → Bytes} {usable : Nat → Nat}

theorem ProofInv.part (h : ProofInv s) {m : Move τ} (hm : m.isPart = true)
    (hstep : step sha256 mem verify floatText usable s m = some s') : ProofInv s' := by
  obtain ⟨-, wl, phase, ending, hwl, rfl⟩ := part_cases hm hstep
  have hf : flagsOf wl = flagsOf s.wl := by
    rcases hwl with rfl | rfl
    · rfl
    · rfl
  exact h.keep ⟨rfl, rfl, rfl, rfl, rfl, rfl⟩ (.of_flags (.inl hf))

theorem step_proofInv {m : Move τ} (hstep : step sha256 mem verify floatText usable s m = some s')
    (hearned : earned sha256 mem verify s m = true) (h : ProofInv s) : ProofInv s' := by
  cases m with
  | enter e =>
    cases hstep
    unfold enterStep
    split_ifs
    · exact h
    · exact h.keep ⟨rfl, rfl, rfl, rfl, rfl, rfl⟩ (.of_flags (.inl rfl))
  | finish k =>
    simp only [step] at hstep
    split at hstep
    · cases hstep
    rename_i e he
    have hs : ProofInv { s with inside := s.inside.eraseIdx k } :=
      h.keep ⟨rfl, rfl, rfl, rfl, rfl, rfl⟩ (.of_flags (.inl rfl))
    refine hs.body hstep (fun env tagOf data heq => ?_) (fun tagOf call heq => ?_)
    · subst heq
      change s.jobIs ReportPc.clearing = false
      simpa [earned, he] using hearned
    · subst heq
      change _ ∨ _ ∧ s.lent = 0 ∧ s.owed = 0
      simpa [earned, he] using hearned
  | lock k =>
    simp only [step] at hstep
    split at hstep
    · cases hstep
    rename_i c hc
    split_ifs at hstep with hlock
    cases hstep
    exact h.lock hc hlock (by simpa [earned, hc] using hearned)
  | report =>
    simp only [step] at hstep
    split at hstep
    · cases hstep
    rename_i j hj
    obtain ⟨c, pc⟩ := j
    refine h.report hj (fun hpc hr => ?_) hstep
    subst hpc
    simpa [earned, hj, hr] using hearned
  | setProcess =>
    simp only [step] at hstep
    split_ifs at hstep
    cases hstep
    exact h.keep ⟨rfl, rfl, rfl, rfl, rfl, rfl⟩ (.of_status rfl)
  | mainLoop =>
    cases hstep
    exact h.keep ⟨rfl, rfl, rfl, rfl, rfl, rfl⟩ (.of_flags (.inl rfl))
  | loop i env =>
    simp only [step] at hstep
    split at hstep
    · cases hstep
    rename_i l hl
    obtain ⟨⟨wl', l'⟩, hloop, rfl⟩ := Option.map_eq_some_iff.mp hstep
    refine h.pass hloop fun hpc => ?_
    simpa [earned, hl, hpc, and_assoc] using hearned
  | genReport env blockHeight =>
    simp only [step] at hstep
    split_ifs at hstep with hlock
    cases hstep
    exact h.genStep env blockHeight hlock (by simpa [earned] using hearned)
  | upload env => exact h.part rfl hstep
  | serializeSrd => exact h.part rfl hstep
  | serializeFile env => exact h.part rfl hstep
  | sign env => exact h.part rfl hstep
  | genDone k =>
    simp only [step] at hstep
    split at hstep
    · cases hstep
    · cases hstep
      exact h.keep ⟨rfl, rfl, rfl, rfl, rfl, rfl⟩ (.of_status rfl)

theorem signed_cases {pc : ReportPc τ} (h : pc.signed = true) :
    pc.proved = true ∧ pc.uploading = false ∧ pc.refusing = false ∧
      (pc.reducing = true ∨ pc.passed = true) := by
  unfold ReportPc.signed at h
  split at h
  · exact ⟨rfl, rfl, rfl, .inr rfl⟩
  · exact ⟨rfl, rfl, rfl, .inr rfl⟩
  · exact ⟨rfl, rfl, rfl, .inr rfl⟩
  · exact ⟨rfl, rfl, rfl, .inl rfl⟩
  · cases h

theorem ProofInv.covered (h : ProofInv s) : s.workReports.length ≤ s.passes := by
  have hbal := h.balance
  by_cases ho : s.owed = 0
  · by_cases hl : s.lent = 0
    · by_cases hd : s.due = 0
      · omega
      · obtain ⟨c, pc, hj, hpc⟩ := job_of_due hd
        have hone := due_le_one s
        have hpos := h.proved ((jobIs_of_job hj _).trans (signed_cases hpc.2).1)
        omega
    · have hlent := h.lent hl
      have hone := hlent.one
      have hpos := hlent.proof
      have hd : s.due = 0 := by
        by_contra hd
        obtain ⟨c, pc, hj, hecall, hpc⟩ := job_of_due hd
        rcases hlent.job _ hj with hr | hu
        · dsimp only at hr
          cases ha : c.asker with
          | ecall upload => simp [ha, Asker.isRestore] at hr
          | restore upload => simp [ha, Asker.isEcall] at hecall
          | handOver => simp [ha, Asker.isRestore] at hr
        · exact absurd hu (by simp [(signed_cases hpc).2.1])
      omega
  · have howed := h.owed ho
    have hone := howed.one
    have hl := howed.lent
    have hpos := howed.proof
    by_cases hd : s.due = 0
    · omega
    · obtain ⟨c, pc, hj, hpc⟩ := job_of_due hd
      obtain ⟨-, -, hrefusing, hred | hpassed⟩ := signed_cases hpc.2
      · have htwo := howed.second ((jobIs_of_job hj _).trans hred)
        have hone := due_le_one s
        omega
      · have hcosts := (costs_of_job hj).mp howed.costs
        simp [hrefusing, hpassed] at hcosts

/-! ### After a restart -/

theorem body_signs {e : Ecall τ} (hb : body sha256 mem verify s e = some s') :
    s'.workReports = s.workReports ∧ s'.upgradeReports = s.upgradeReports := by
  cases e with
  | srdIncrease env path =>
    cases hb
    exact ⟨rfl, rfl⟩
  | srdDecrease answer change =>
    obtain ⟨r, -, rfl⟩ := Option.map_eq_some_iff.mp hb
    exact ⟨rfl, rfl⟩
  | srdUpdateMetadata answer hashs =>
    obtain ⟨wl, -, rfl⟩ := Option.map_eq_some_iff.mp hb
    exact ⟨rfl, rfl⟩
  | restoreMetadata env tagOf data =>
    obtain ⟨r, -, rfl⟩ := Option.map_eq_some_iff.mp hb
    exact ⟨rfl, rfl⟩
  | genAndUploadWorkReport env upload blockHash blockHeight =>
    cases hb
    exact ⟨rfl, rfl⟩
  | genKeyPair env accountId =>
    cases hb
    exact ⟨rfl, rfl⟩
  | sealFile env tag treeText path =>
    obtain ⟨r, -, rfl⟩ := Option.map_eq_some_iff.mp hb
    exact ⟨rfl, rfl⟩
  | confirmFile hash =>
    cases hb
    exact ⟨rfl, rfl⟩
  | deleteFile hash =>
    cases hb
    exact ⟨rfl, rfl⟩
  | enableUpgrade blockHeight =>
    simp only [Surface.body] at hb
    cases hb
    split_ifs
    · exact ⟨rfl, rfl⟩
    · exact ⟨rfl, rfl⟩
  | disableUpgrade =>
    cases hb
    exact ⟨rfl, rfl⟩
  | restoreFromUpgrade tagOf call =>
    simp only [Surface.body] at hb
    split at hb
    · cases hb
      exact ⟨rfl, rfl⟩
    · obtain ⟨r, -, rfl⟩ := Option.map_eq_some_iff.mp hb
      exact ⟨rfl, rfl⟩
  | silent name hname =>
    cases hb
    exact ⟨rfl, rfl⟩

theorem reportStep_signs {c : ReportCall} {pc : ReportPc τ}
    (hstep : reportStep sha256 mem s c pc = some s') (hpc : pc.unrestarted = false) :
    s'.workReports = s.workReports ∧ s'.upgradeReports = s.upgradeReports := by
  cases pc with
  | height =>
    simp only [reportStep] at hstep
    split_ifs at hstep
    · cases hstep
      exact ⟨rfl, rfl⟩
    · cases hstep
      exact ⟨rfl, rfl⟩
  | restart =>
    cases hstep
    exact ⟨rfl, rfl⟩
  | proof => cases hpc
  | files => cases hpc
  | compose => cases hpc
  | setHeight made =>
    cases hstep
    exact ⟨rfl, rfl⟩
  | setRestart made =>
    cases hstep
    exact ⟨rfl, rfl⟩
  | setFiles made =>
    cases hstep
    exact ⟨rfl, rfl⟩
  | reduce made =>
    cases made with
    | none =>
      cases hstep
      exact ⟨rfl, rfl⟩
    | some p =>
      simp only [reportStep] at hstep
      split at hstep
      · cases hstep
        exact ⟨rfl, rfl⟩
      · cases hstep
        exact ⟨rfl, rfl⟩
  | upload r sig =>
    simp only [reportStep] at hstep
    split at hstep
    · cases hstep
    · cases hstep
      exact ⟨rfl, rfl⟩
    · cases hstep
      exact ⟨rfl, rfl⟩

theorem part_signs {m : Move τ} (hm : m.isPart = true)
    (hstep : step sha256 mem verify floatText usable s m = some s') :
    s'.workReports = s.workReports ∧ s'.upgradeReports = s.upgradeReports := by
  obtain ⟨-, wl, phase, ending, -, rfl⟩ := part_cases hm hstep
  exact ⟨rfl, rfl⟩

theorem step_signs {m : Move τ} (hstep : step sha256 mem verify floatText usable s m = some s')
    (hseen : s.jobIs ReportPc.unrestarted = false) :
    s'.workReports = s.workReports ∧ s'.upgradeReports = s.upgradeReports := by
  cases m with
  | enter e =>
    cases hstep
    unfold enterStep
    split_ifs
    · exact ⟨rfl, rfl⟩
    · exact ⟨rfl, rfl⟩
  | finish k =>
    simp only [step] at hstep
    split at hstep
    · cases hstep
    · obtain ⟨hw, hu⟩ := body_signs hstep
      exact ⟨hw, hu⟩
  | lock k =>
    simp only [step] at hstep
    split at hstep
    · cases hstep
    · split_ifs at hstep
      cases hstep
      exact ⟨rfl, rfl⟩
  | report =>
    simp only [step] at hstep
    split at hstep
    · cases hstep
    rename_i j hj
    rw [jobIs_of_job hj] at hseen
    exact reportStep_signs hstep hseen
  | setProcess =>
    simp only [step] at hstep
    split_ifs at hstep
    cases hstep
    exact ⟨rfl, rfl⟩
  | mainLoop =>
    cases hstep
    exact ⟨rfl, rfl⟩
  | loop i env =>
    simp only [step] at hstep
    split at hstep
    · cases hstep
    obtain ⟨r, -, rfl⟩ := Option.map_eq_some_iff.mp hstep
    unfold passStep
    dsimp only
    split_ifs
    · exact ⟨rfl, rfl⟩
    · exact ⟨rfl, rfl⟩
    · exact ⟨rfl, rfl⟩
  | genReport env blockHeight =>
    simp only [step] at hstep
    split_ifs at hstep
    cases hstep
    unfold Surface.genStep
    split
    · exact ⟨rfl, rfl⟩
    · exact ⟨rfl, rfl⟩
  | upload env => exact part_signs rfl hstep
  | serializeSrd => exact part_signs rfl hstep
  | serializeFile env => exact part_signs rfl hstep
  | sign env => exact part_signs rfl hstep
  | genDone k =>
    simp only [step] at hstep
    split at hstep
    · cases hstep
    · cases hstep
      exact ⟨rfl, rfl⟩

/-! ### The main theorem -/

/-- In every run whose passes and restores earn their proofs, there are never more work reports
than passes really performed, and between a restore of the metadata and the first report past
the height check that sets the restart flag back no step signs anything. -/
theorem no_report_without_validation {keys : KeyPair} {pre : PubKey} {moves : List (Move τ)}
    {t : State τ}
    (hrun : Runs.run (step sha256 mem verify floatText usable) (State.init keys pre) moves = some t)
    (hearned : Runs.Allowed (step sha256 mem verify floatText usable)
      (fun s m => earned sha256 mem verify s m = true) (State.init keys pre) moves) :
    t.workReports.length ≤ t.passes ∧
      (t.restored = true → ∀ m t', step sha256 mem verify floatText usable t m = some t' →
        t'.workReports = t.workReports ∧ t'.upgradeReports = t.upgradeReports) := by
  have hinv : ProofInv t :=
    Runs.run_invariant_of (fun _ _ _ h hq hi => step_proofInv h hq hi) hrun hearned
      (proofInv_init keys pre)
  exact ⟨hinv.covered, fun hr m t' hstep => step_signs hstep (hinv.restart hr).2⟩

end

/-! ### A validated report and two that are not -/

def quietLoop : LoopEnv where
  validateInit := .success
  rand := fun _ => 0
  check := ⟨(.success, none), fun _ => ⟨true, true, true⟩, fun _ => 0, fun _ => (.success, none),
    true, zeroHash⟩
  failed := []
  answer := fun _ => .success

def smallInit : State Unit := State.init Seal.freshWorkload.idKeyPair Seal.freshWorkload.prePubKey

def smallMachine : State Unit → Move Unit → Option (State Unit) :=
  step Sha256.sha256 Metadata.plainMem hashVerify (fun v _ => v) (max 24)

def report (blockHeight : UInt64) : List (Move Unit) :=
  [.enter (.genAndUploadWorkReport openGen.report openGen.upload (List.replicate 64 97) blockHeight),
    .finish 0, .lock 0] ++ List.replicate 10 .report

def validPass : List (Move Unit) := List.replicate 8 (.loop 0 quietLoop)

def skippedPass : List (Move Unit) := List.replicate 5 (.loop 0 quietLoop)

def handOverAt (blockHeight : UInt64) : List (Move Unit) :=
  .genReport openGen blockHeight :: List.replicate 9 .report ++
    [.upload openGen, .serializeSrd, .serializeFile openGen, .sign openGen, .genDone 0]

theorem one_pass_one_report :
    ∃ t, Runs.run smallMachine smallInit (.mainLoop :: validPass ++ report 300) = some t ∧
      t.workReports.length = 1 ∧ t.workReports.length ≤ t.passes := by
  have heval : (Runs.run smallMachine smallInit (.mainLoop :: validPass ++ report 300)).map
      (fun t => t.workReports.length) = some 1 := by decide +kernel
  obtain ⟨t, hrun, hlen⟩ := Option.map_eq_some_iff.mp heval
  exact ⟨t, hrun, hlen, (no_report_without_validation hrun (by decide +kernel)).1⟩

theorem reports_without_validation :
    ∃ t, Runs.run smallMachine smallInit (.mainLoop :: validPass ++ handOverAt 700 ++ skippedPass ++
        report 900 ++ skippedPass ++ report 1200) = some t ∧
      ¬ t.workReports.length ≤ t.passes := by
  have heval : (Runs.run smallMachine smallInit (.mainLoop :: validPass ++ handOverAt 700 ++
      skippedPass ++ report 900 ++ skippedPass ++ report 1200)).map
      (fun t => decide (t.workReports.length ≤ t.passes)) = some false := by decide +kernel
  obtain ⟨t, hrun, hlen⟩ := Option.map_eq_some_iff.mp heval
  exact ⟨t, hrun, of_decide_eq_false hlen⟩

end CrustSworker.Surface

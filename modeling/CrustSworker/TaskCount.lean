import CrustSworker.Admission
import Mathlib.Data.Set.Card

/-!
# What the running-task counter counts

`g_running_task_num` against the threads that are inside an admitted ecall, along every run of
the scheduler. A thread enters its record and the counter once, at its first ecall, but
`free_enclave` takes both out at the end of every ecall, so a nested ecall that returns gives
up the slot of the one around it. The other two ways to lose the count are the ones of
admission: a call that was blocked takes a slot nobody frees, and a nested call that times out
drops the record, so that the next nested call counts its thread again.
-/

namespace CrustSworker.TaskCount

open ECalls Admission

variable {T : Type}

def admitted : Frame → Bool
  | .calling c => decided c.pc && decide (c.status = .success)
  | .inside _ => true
  | .freeing _ => false
  | .freeingWrite _ _ => false

def nameOf : Frame → EcallName
  | .calling c => c.name
  | .inside name => name
  | .freeing name => name
  | .freeingWrite name _ => name

def lowPriority (f : Frame) : Bool := decide (taskPriority (nameOf f) > encHighestPriority)

def Holds (fs : List Frame) : Prop := ∃ f ∈ fs, admitted f = true

def HoldsLow (fs : List Frame) : Prop := ∃ f ∈ fs, admitted f = true ∧ lowPriority f = true

def insideThreads (s : System T) : Set T := {tid | Holds (s.stack tid)}

def lowThreads (s : System T) : Set T := {tid | HoldsLow (s.stack tid)}

structure Counted (s : System T) : Prop where
  finite : (insideThreads s).Finite
  num : s.tables.runningNum = (insideThreads s).ncard
  nonneg : 0 ≤ s.tables.runningNum
  bound : s.tables.runningNum ≤ encMaxThreadNum
  reserved : (lowThreads s).ncard ≤ encMaxThreadNum - encReservedThreadNum

/-- An ecall that is left is the outermost one of its thread; a first call that is let in was
not blocked before, and a nested one finds the record of its thread. -/
def keepsCount (s : System T) (a : T × Move) : Bool :=
  match a.2, s.stack a.1 with
  | .leave, _ :: fs => decide (fs = [])
  | .advance, .calling c :: fs =>
    decide (c.pc = .critical → hasRoom s.tables c.prio = true →
      if fs = [] then c.status = .success else (s.tables.running a.1).isSome = true)
  | _, _ => true

/-! ### One thread changes -/

theorem holds_cons (f : Frame) (fs : List Frame) :
    Holds (f :: fs) ↔ admitted f = true ∨ Holds fs := by
  simp [Holds]

theorem holdsLow_cons (f : Frame) (fs : List Frame) :
    HoldsLow (f :: fs) ↔ (admitted f = true ∧ lowPriority f = true) ∨ HoldsLow fs := by
  simp [HoldsLow]

theorem HoldsLow.holds {fs : List Frame} (h : HoldsLow fs) : Holds fs := by
  obtain ⟨f, hf, ha, -⟩ := h
  exact ⟨f, hf, ha⟩

theorem lowThreads_subset (s : System T) : lowThreads s ⊆ insideThreads s :=
  fun _ h => HoldsLow.holds h

structure Inv (s : System T) : Prop where
  nested : ∀ tid f fs, s.stack tid = f :: fs → ∀ g ∈ fs, ∃ name, g = .inside name
  recorded : ∀ tid, (s.tables.running tid).isSome = true → tid ∈ insideThreads s
  counted : Counted s

section
variable {s s' : System T} {tid : T}

theorem insideThreads_same (hother : ∀ k, k ≠ tid → s'.stack k = s.stack k)
    (h : Holds (s'.stack tid) ↔ Holds (s.stack tid)) : insideThreads s' = insideThreads s := by
  ext k
  by_cases hk : k = tid
  · rw [hk]
    exact h
  · simp only [insideThreads, Set.mem_ofPred_eq, hother k hk]

theorem insideThreads_enter (hother : ∀ k, k ≠ tid → s'.stack k = s.stack k)
    (h : Holds (s'.stack tid)) : insideThreads s' = insert tid (insideThreads s) := by
  ext k
  by_cases hk : k = tid
  · rw [hk]
    exact ⟨fun _ => Set.mem_insert _ _, fun _ => h⟩
  · simp only [insideThreads, Set.mem_ofPred_eq, hother k hk, Set.mem_insert_iff, hk, false_or]

theorem insideThreads_exit (hother : ∀ k, k ≠ tid → s'.stack k = s.stack k)
    (h : ¬ Holds (s'.stack tid)) : insideThreads s' = insideThreads s \ {tid} := by
  ext k
  by_cases hk : k = tid
  · rw [hk]
    exact ⟨fun h' => absurd h' h, fun h' => absurd rfl h'.2⟩
  · simp only [insideThreads, Set.mem_ofPred_eq, hother k hk, Set.mem_sdiff, Set.mem_singleton_iff,
      hk, not_false_eq_true, and_true]

theorem lowThreads_mono (hother : ∀ k, k ≠ tid → s'.stack k = s.stack k)
    (h : HoldsLow (s'.stack tid) → HoldsLow (s.stack tid)) : lowThreads s' ⊆ lowThreads s := by
  intro k hk
  by_cases hkt : k = tid
  · rw [hkt] at hk ⊢
    exact h hk
  · simpa only [lowThreads, Set.mem_ofPred_eq, hother k hkt] using hk

theorem low_bound (hi : Inv s) (h : lowThreads s' ⊆ lowThreads s) :
    ((lowThreads s').ncard : Int) ≤ encMaxThreadNum - encReservedThreadNum := by
  have hfin : (lowThreads s).Finite := hi.counted.finite.subset (lowThreads_subset s)
  have hle := Set.ncard_le_ncard h hfin
  have hres := hi.counted.reserved
  omega

end

/-! ### Steps of `try_get_enclave` -/

section
variable [DecidableEq T]

theorem callStep_quiet (t : Tables T) (tid : T) (c : Call)
    (h : ¬ (c.pc = .critical ∧ hasRoom t c.prio = true)) :
    admitted (.calling (callStep t tid c).2) = admitted (.calling c) ∧
      (callStep t tid c).1.runningNum = t.runningNum ∧
      (((callStep t tid c).1.running tid).isSome = true → (t.running tid).isSome = true) := by
  obtain ⟨name, pc, timeout, status⟩ := c
  cases pc with
  | critical =>
    have hroom : hasRoom t (Call.prio ⟨name, .critical, timeout, status⟩) = false := by
      simpa using h
    simp [callStep, hasRoom_mutex, hroom, admitted, decided, Call.goto]
  | block rest =>
    cases rest with
    | nil => exact ⟨rfl, rfl, id⟩
    | cons b rest =>
      simp only [callStep]
      split_ifs
      · exact ⟨rfl, rfl, id⟩
      · exact ⟨rfl, rfl, id⟩
  | loop =>
    simp only [callStep]
    split_ifs
    · simp [admitted, decided]
    · exact ⟨rfl, rfl, id⟩
    · exact ⟨rfl, rfl, id⟩
  | count =>
    unfold callStep
    dsimp only
    split_ifs
    · exact ⟨rfl, rfl, id⟩
    · exact ⟨rfl, rfl, id⟩
  | slot =>
    unfold callStep
    dsimp only
    split_ifs
    · exact ⟨rfl, rfl, id⟩
    · exact ⟨rfl, rfl, id⟩
  | tryLock =>
    simp only [callStep]
    split_ifs
    · exact ⟨rfl, rfl, id⟩
    · exact ⟨rfl, rfl, id⟩
  | settle =>
    simp only [callStep]
    split_ifs
    · exact ⟨rfl, rfl, id⟩
    · exact ⟨rfl, rfl, id⟩
  | _ => exact ⟨rfl, rfl, id⟩

theorem callStep_critical {t : Tables T} {tid : T} {c : Call} (hpc : c.pc = .critical)
    (hroom : hasRoom t c.prio = true) :
    callStep t tid c = (register { t with mutex := none } tid c.name, c.goto .dequeue) := by
  obtain ⟨name, pc, timeout, status⟩ := c
  obtain rfl : pc = .critical := hpc
  simp [callStep, hasRoom_mutex, hroom]

theorem register_fresh {t : Tables T} {tid : T} (name : EcallName) (h : t.running tid = none) :
    (register t tid name).runningNum = t.runningNum + 1 := by
  simp [register, h]

theorem register_again {t : Tables T} {tid : T} (name : EcallName)
    (h : (t.running tid).isSome = true) : (register t tid name).runningNum = t.runningNum := by
  obtain ⟨info, hinfo⟩ := Option.isSome_iff_exists.mp h
  simp [register, hinfo]

end

/-! ### What a step can do to its thread -/

/-- The step leaves the count of admitted ecalls of its thread as it is. -/
structure Quiet (s s' : System T) (tid : T) : Prop where
  holds : Holds (s'.stack tid) ↔ Holds (s.stack tid)
  low : HoldsLow (s'.stack tid) → HoldsLow (s.stack tid)
  num : s'.tables.runningNum = s.tables.runningNum
  record : (s'.tables.running tid).isSome = true → (s.tables.running tid).isSome = true

/-- A call is let in; `fs` are the ecalls it was issued from. -/
structure LetIn (s s' : System T) (tid : T) (c : Call) (fs : List Frame) : Prop where
  before : s.stack tid = .calling c :: fs
  after : s'.stack tid = .calling (c.goto .dequeue) :: fs
  critical : c.pc = .critical
  room : hasRoom s.tables c.prio = true
  fresh : s.tables.running tid = none → s'.tables.runningNum = s.tables.runningNum + 1
  again : (s.tables.running tid).isSome = true →
    s'.tables.runningNum = s.tables.runningNum

structure Left (s s' : System T) (tid : T) (name : EcallName) (fs : List Frame) : Prop where
  before : s.stack tid = .inside name :: fs
  after : s'.stack tid = .freeing name :: fs
  num : s'.tables.runningNum = s.tables.runningNum - 1
  record : s'.tables.running tid = none

theorem LetIn.not_admitted {s s' : System T} {tid : T} {c : Call} {fs : List Frame}
    (h : LetIn s s' tid c fs) : admitted (.calling c) = false := by
  simp [admitted, h.critical, decided]

theorem admitted_dequeue (c : Call) :
    admitted (.calling (c.goto .dequeue)) = true ↔ c.status = .success := by
  simp only [admitted, Bool.and_eq_true, decide_eq_true_eq]
  exact and_iff_right rfl

theorem holds_of_nested {s : System T} (hi : Inv s) {tid : T} {f : Frame} {fs : List Frame}
    (h : s.stack tid = f :: fs) (hfs : fs ≠ []) : Holds fs := by
  obtain ⟨g, gs, rfl⟩ := List.exists_cons_of_ne_nil hfs
  obtain ⟨name, rfl⟩ := hi.nested tid f _ h g List.mem_cons_self
  exact ⟨.inside name, List.mem_cons_self, rfl⟩

theorem room_spec {t : Tables T} {p : Nat} (h : hasRoom t p = true) :
    t.runningNum < encMaxThreadNum ∧
      (p > encHighestPriority → t.runningNum + 1 ≤ encMaxThreadNum - encReservedThreadNum) := by
  simp only [hasRoom, decide_eq_true_eq, not_or, not_and, not_le, ge_iff_le] at h
  obtain ⟨hmax, hres, -⟩ := h
  refine ⟨hmax, fun hp => ?_⟩
  have := hres hp
  omega

section
variable [DecidableEq T] {s s' : System T} {a : T × Move}

theorem step_nested (h : step s a = some s')
    (hi : ∀ tid f fs, s.stack tid = f :: fs → ∀ g ∈ fs, ∃ name, g = .inside name) :
    ∀ tid f fs, s'.stack tid = f :: fs → ∀ g ∈ fs, ∃ name, g = .inside name := by
  intro tid f fs hstack
  by_cases htid : tid = a.1
  · obtain ⟨k, move⟩ := a
    obtain rfl : tid = k := htid
    have hself : ∀ l t, (s.setStack tid l t).stack tid = l := fun l t => Function.update_self _ _ _
    unfold step at h
    split at h
    · cases h
      rw [hself] at hstack
      cases hstack
      simp
    · rename_i hold
      cases h
      rw [hself] at hstack
      cases hstack
      intro g hg
      rcases List.mem_cons.mp hg with rfl | hg
      · exact ⟨_, rfl⟩
      · exact hi tid _ _ hold g hg
    · rename_i hold
      cases h
      rw [hself] at hstack
      cases hstack
      exact hi tid _ _ hold
    · rename_i hold
      split_ifs at h
      · cases h
        rw [hself] at hstack
        cases hstack
        exact hi tid _ _ hold
      · cases h
        rw [hself] at hstack
        intro g hg
        exact hi tid _ _ hold g (by simp [hstack, hg])
    · rename_i hold
      split_ifs at h
      cases h
      rw [hself] at hstack
      cases hstack
      exact hi tid _ _ hold
    · rename_i hold
      cases h
      rw [hself] at hstack
      cases hstack
      exact hi tid _ _ hold
    · rename_i hold
      cases h
      rw [hself] at hstack
      intro g hg
      exact hi tid _ _ hold g (by simp [hstack, hg])
    · cases h
  · rw [(step_other h htid).1] at hstack
    exact hi tid f fs hstack

theorem step_cases (h : step s a = some s') :
    Quiet s s' a.1 ∧ keepsCount s a = true ∨ (∃ c fs, a.2 = .advance ∧ LetIn s s' a.1 c fs) ∨
      ∃ name fs, a.2 = .leave ∧ Left s s' a.1 name fs := by
  obtain ⟨tid, move⟩ := a
  have hself : ∀ l t, (s.setStack tid l t).stack tid = l := fun l t => Function.update_self _ _ _
  unfold step at h
  split at h
  · rename_i name hmove hold
    obtain rfl : move = .start name := hmove
    cases h
    refine .inl ⟨⟨?_, ?_, rfl, id⟩, rfl⟩
    · rw [hself, hold, holds_cons]
      simp [admitted, Call.start, decided]
    · rw [hself, hold, holdsLow_cons]
      simp [admitted, Call.start, decided]
  · rename_i name n fs hmove hold
    obtain rfl : move = .start name := hmove
    cases h
    refine .inl ⟨⟨?_, ?_, rfl, id⟩, rfl⟩
    · rw [hself, hold, holds_cons]
      simp [admitted, Call.start, decided]
    · rw [hself, hold, holdsLow_cons]
      simp [admitted, Call.start, decided]
  · rename_i c fs hmove hold
    obtain rfl : move = .advance := hmove
    cases h
    by_cases hin : c.pc = .critical ∧ hasRoom s.tables c.prio = true
    · refine .inr (.inl ⟨c, fs, rfl, hold, ?_, hin.1, hin.2, ?_, ?_⟩)
      · rw [hself, callStep_critical hin.1 hin.2]
      · intro hrec
        rw [callStep_critical hin.1 hin.2]
        exact register_fresh _ hrec
      · intro hrec
        rw [callStep_critical hin.1 hin.2]
        exact register_again _ hrec
    · obtain ⟨had, hnum, hrec⟩ := callStep_quiet s.tables tid c hin
      refine .inl ⟨⟨?_, ?_, hnum, hrec⟩, ?_⟩
      · rw [hself, hold, holds_cons, holds_cons, had]
      · rw [hself, hold, holdsLow_cons, holdsLow_cons, had, lowPriority, nameOf, callStep_name]
        exact id
      · simp only [keepsCount, hold, decide_eq_true_eq]
        exact fun hpc hroom => absurd ⟨hpc, hroom⟩ hin
  · rename_i c fs hmove hold
    obtain rfl : move = .proceed := hmove
    split_ifs at h with hpc hst
    · cases h
      have hdecided : decided c.pc = true := by
        rw [not_not.mp hpc]
        rfl
      refine .inl ⟨⟨?_, ?_, rfl, id⟩, rfl⟩
      · rw [hself, hold, holds_cons, holds_cons]
        simp [admitted, hdecided, hst]
      · rw [hself, hold, holdsLow_cons, holdsLow_cons]
        simp [admitted, hdecided, hst, lowPriority, nameOf]
    · cases h
      refine .inl ⟨⟨?_, ?_, rfl, id⟩, rfl⟩
      · rw [hself, hold, holds_cons]
        simp [admitted, hst]
      · rw [hself, hold, holdsLow_cons]
        exact .inr
  · rename_i name fs hmove hold
    obtain rfl : move = .leave := hmove
    split_ifs at h
    cases h
    exact .inr (.inr ⟨name, fs, rfl, hold, hself _ _, rfl, Function.update_self _ _ _⟩)
  · rename_i name fs hmove hold
    obtain rfl : move = .freed := hmove
    cases h
    refine .inl ⟨⟨?_, ?_, rfl, id⟩, rfl⟩
    · rw [hself, hold, holds_cons, holds_cons]
      simp [admitted]
    · rw [hself, hold, holdsLow_cons, holdsLow_cons]
      simp [admitted]
  · rename_i name seen fs hmove hold
    obtain rfl : move = .freed := hmove
    cases h
    refine .inl ⟨⟨?_, ?_, rfl, id⟩, rfl⟩
    · rw [hself, hold, holds_cons]
      simp [admitted]
    · rw [hself, hold, holdsLow_cons]
      exact .inr
  · cases h

/-! ### The invariant -/

theorem Quiet.inside (h : Quiet s s' a.1) (hstep : step s a = some s') :
    insideThreads s' = insideThreads s :=
  insideThreads_same (fun _ hk => (step_other hstep hk).1) h.holds

theorem Quiet.inv (h : Quiet s s' a.1) (hstep : step s a = some s') (hi : Inv s) : Inv s' := by
  have hsame := h.inside hstep
  refine ⟨step_nested hstep hi.nested, fun tid hrec => ?_, ?_⟩
  · rw [hsame]
    by_cases htid : tid = a.1
    · rw [htid] at hrec ⊢
      exact hi.recorded a.1 (h.record hrec)
    · rw [(step_other hstep htid).2] at hrec
      exact hi.recorded tid hrec
  · have hlow : lowThreads s' ⊆ lowThreads s :=
      lowThreads_mono (fun _ hk => (step_other hstep hk).1) h.low
    refine ⟨?_, ?_, ?_, ?_, low_bound hi hlow⟩
    · rw [hsame]
      exact hi.counted.finite
    · rw [hsame, h.num]
      exact hi.counted.num
    · rw [h.num]
      exact hi.counted.nonneg
    · rw [h.num]
      exact hi.counted.bound

section LetIn
variable {c : Call} {fs : List Frame}

theorem LetIn.inside_nested (h : LetIn s s' a.1 c fs) (hstep : step s a = some s') (hi : Inv s)
    (hfs : fs ≠ []) : insideThreads s' = insideThreads s := by
  have hfs' := holds_of_nested hi h.before hfs
  refine insideThreads_same (fun _ hk => (step_other hstep hk).1) ?_
  rw [h.before, h.after, holds_cons, holds_cons]
  exact ⟨fun _ => .inr hfs', fun _ => .inr hfs'⟩

omit [DecidableEq T] in
theorem LetIn.outside (h : LetIn s s' a.1 c fs) (hfs : fs = []) : a.1 ∉ insideThreads s := by
  intro hmem
  have hholds : Holds (s.stack a.1) := hmem
  rw [h.before, hfs, holds_cons, h.not_admitted] at hholds
  simp [Holds] at hholds

omit [DecidableEq T] in
theorem LetIn.unrecorded (h : LetIn s s' a.1 c fs) (hi : Inv s) (hfs : fs = []) :
    s.tables.running a.1 = none := by
  by_contra hne
  exact h.outside hfs (hi.recorded a.1 (Option.isSome_iff_ne_none.mpr hne))

theorem LetIn.low (h : LetIn s s' a.1 c fs) (hstep : step s a = some s') (hi : Inv s)
    (hfin : (insideThreads s').Finite)
    (hcard : ((insideThreads s').ncard : Int) ≤ s.tables.runningNum + 1) :
    ((lowThreads s').ncard : Int) ≤ encMaxThreadNum - encReservedThreadNum := by
  obtain ⟨-, hres⟩ := room_spec h.room
  by_cases hp : c.prio > encHighestPriority
  · have hle := Set.ncard_le_ncard (lowThreads_subset s') hfin
    have := hres hp
    omega
  · refine low_bound hi (lowThreads_mono (fun _ hk => (step_other hstep hk).1) ?_)
    rw [h.before, h.after, holdsLow_cons, holdsLow_cons]
    rintro (⟨-, hlow⟩ | hlow)
    · exact absurd (of_decide_eq_true hlow) hp
    · exact .inr hlow

theorem LetIn.inv (h : LetIn s s' a.1 c fs) (hstep : step s a = some s') (hi : Inv s)
    (hok : if fs = [] then c.status = .success else (s.tables.running a.1).isSome = true) :
    Inv s' := by
  obtain ⟨hmax, -⟩ := room_spec h.room
  have hnonneg := hi.counted.nonneg
  have hnum := hi.counted.num
  have hrecorded : a.1 ∈ insideThreads s' → ∀ tid,
      (s'.tables.running tid).isSome = true → tid ∈ insideThreads s' := by
    intro hself tid hrec
    by_cases htid : tid = a.1
    · rwa [htid]
    · rw [(step_other hstep htid).2] at hrec
      have hmem : Holds (s.stack tid) := hi.recorded tid hrec
      rwa [← (step_other hstep htid).1] at hmem
  by_cases hfs : fs = []
  · rw [if_pos hfs] at hok
    have hholds : Holds (s'.stack a.1) := by
      rw [h.after, holds_cons]
      exact .inl ((admitted_dequeue c).mpr hok)
    have hinsert := insideThreads_enter (fun _ hk => (step_other hstep hk).1) hholds
    have hfin : (insideThreads s').Finite := by
      rw [hinsert]
      exact hi.counted.finite.insert a.1
    have hcard : (insideThreads s').ncard = (insideThreads s).ncard + 1 := by
      rw [hinsert]
      exact Set.ncard_insert_of_notMem (h.outside hfs) hi.counted.finite
    have hplus := h.fresh (h.unrecorded hi hfs)
    refine ⟨step_nested hstep hi.nested, hrecorded hholds, hfin, ?_, ?_, ?_, ?_⟩
    · omega
    · omega
    · omega
    · exact h.low hstep hi hfin (by omega)
  · rw [if_neg hfs] at hok
    have hsame := h.inside_nested hstep hi hfs
    have hplus := h.again hok
    have hfin : (insideThreads s').Finite := by
      rw [hsame]
      exact hi.counted.finite
    have hself : a.1 ∈ insideThreads s' := by
      rw [hsame]
      exact hi.recorded a.1 hok
    refine ⟨step_nested hstep hi.nested, hrecorded hself, hfin, ?_, ?_, ?_, ?_⟩
    · rw [hsame]
      omega
    · omega
    · omega
    · exact h.low hstep hi hfin (by rw [hsame]; omega)

/-- A first call that was blocked is counted and not inside; a nested one without a record is
counted a second time. -/
theorem LetIn.keeps (h : LetIn s s' a.1 c fs) (hstep : step s a = some s') (hi : Inv s)
    (hnum : s'.tables.runningNum = (insideThreads s').ncard) :
    if fs = [] then c.status = .success else (s.tables.running a.1).isSome = true := by
  have hnum₀ := hi.counted.num
  split_ifs with hfs
  · by_contra hst
    have hsame : insideThreads s' = insideThreads s := by
      refine insideThreads_same (fun _ hk => (step_other hstep hk).1) ?_
      rw [h.before, h.after, holds_cons, holds_cons, admitted_dequeue, h.not_admitted]
      simp [hst]
    have hplus := h.fresh (h.unrecorded hi hfs)
    rw [hsame] at hnum
    omega
  · by_contra hrec
    have hsame := h.inside_nested hstep hi hfs
    have hplus := h.fresh (Option.not_isSome_iff_eq_none.mp hrec)
    rw [hsame] at hnum
    omega

end LetIn

section Left
variable {name : EcallName} {fs : List Frame}

theorem Left.inv (h : Left s s' a.1 name fs) (hstep : step s a = some s') (hi : Inv s)
    (hfs : fs = []) : Inv s' := by
  have hmem : a.1 ∈ insideThreads s := by
    change Holds (s.stack a.1)
    rw [h.before, holds_cons]
    exact .inl rfl
  have hout : ¬ Holds (s'.stack a.1) := by
    rw [h.after, hfs, holds_cons]
    simp [admitted, Holds]
  have hdiff := insideThreads_exit (fun _ hk => (step_other hstep hk).1) hout
  have hcard : (insideThreads s').ncard + 1 = (insideThreads s).ncard := by
    rw [hdiff]
    exact Set.ncard_sdiff_singleton_add_one hmem hi.counted.finite
  have hnum := hi.counted.num
  have hminus := h.num
  have hbound := hi.counted.bound
  have hlow : lowThreads s' ⊆ lowThreads s :=
    lowThreads_mono (fun _ hk => (step_other hstep hk).1) fun hl => absurd hl.holds hout
  refine ⟨step_nested hstep hi.nested, fun tid hrec => ?_, ?_, ?_, ?_, ?_, low_bound hi hlow⟩
  · have htid : tid ≠ a.1 := by
      rintro rfl
      rw [h.record] at hrec
      cases hrec
    rw [(step_other hstep htid).2] at hrec
    rw [hdiff]
    exact ⟨hi.recorded tid hrec, htid⟩
  · rw [hdiff]
    exact hi.counted.finite.sdiff
  · omega
  · omega
  · omega

theorem Left.outermost (h : Left s s' a.1 name fs) (hstep : step s a = some s') (hi : Inv s)
    (hnum : s'.tables.runningNum = (insideThreads s').ncard) : fs = [] := by
  by_contra hfs
  have hholds := holds_of_nested hi h.before hfs
  have hsame : insideThreads s' = insideThreads s := by
    refine insideThreads_same (fun _ hk => (step_other hstep hk).1) ?_
    rw [h.before, h.after, holds_cons, holds_cons]
    exact ⟨fun _ => .inr hholds, fun _ => .inr hholds⟩
  have hnum₀ := hi.counted.num
  have hminus := h.num
  rw [hsame] at hnum
  omega

end Left

theorem step_count (hstep : step s a = some s') (hi : Inv s) :
    (keepsCount s a = true → Inv s') ∧ (Counted s' → keepsCount s a = true) := by
  rcases step_cases hstep with ⟨hq, hok⟩ | ⟨c, fs, hmove, hin⟩ | ⟨name, fs, hmove, hleft⟩
  · exact ⟨fun _ => hq.inv hstep hi, fun _ => hok⟩
  · have hiff : keepsCount s a = true ↔
        if fs = [] then c.status = .success else (s.tables.running a.1).isSome = true := by
      simp only [keepsCount, hmove, hin.before, hin.critical, hin.room, forall_const,
        decide_eq_true_eq]
    rw [hiff]
    exact ⟨hin.inv hstep hi, fun hc => hin.keeps hstep hi hc.num⟩
  · have hiff : keepsCount s a = true ↔ fs = [] := by
      simp only [keepsCount, hmove, hleft.before, decide_eq_true_eq]
    rw [hiff]
    exact ⟨hleft.inv hstep hi, fun hc => hleft.outermost hstep hi hc.num⟩

end

/-! ### Whole runs -/

def idle : System T := ⟨.empty, fun _ => []⟩

theorem inv_idle : Inv (idle : System T) := by
  have hinside : insideThreads (idle : System T) = ∅ := by
    ext tid
    simp [insideThreads, idle, Holds]
  have hlow : lowThreads (idle : System T) = ∅ := by
    ext tid
    simp [lowThreads, idle, HoldsLow]
  refine ⟨?_, ?_, ?_, ?_, ?_, ?_, ?_⟩
  · intro tid f fs h
    cases h
  · intro tid h
    cases h
  · simp [hinside]
  · rw [hinside]
    simp [idle, Tables.empty]
  · simp [idle, Tables.empty]
  · simp [idle, Tables.empty, encMaxThreadNum]
  · simp [hlow, encMaxThreadNum, encReservedThreadNum]

/-- The counter counts the threads inside an ecall in every state of a run exactly when no
step of it loses the count. -/
theorem counts_threads_iff [DecidableEq T] {acts : List (T × Move)} {t : System T}
    (hrun : Runs.run step idle acts = some t) :
    Runs.Always step Counted idle acts ↔ Runs.Allowed step (fun s a => keepsCount s a = true) idle acts :=
  Runs.always_iff_allowed (fun _ hi => hi.counted) (fun _ _ _ hstep hi => step_count hstep hi)
    hrun inv_idle

def alone (name : EcallName) : List (Nat × Move) :=
  (0, .start name) :: advances 0 13 ++ [(0, .proceed), (0, .leave), (0, .freed), (0, .freed)]

theorem counts_threads_mainLoop :
    ∃ t, Runs.run step idle (alone .mainLoop) = some t ∧
      Runs.Always step Counted idle (alone .mainLoop) := by
  have hrun : ((Runs.run step (idle : System Nat) (alone .mainLoop)).map fun t =>
      t.tables.runningNum) = some 0 := by decide +kernel
  obtain ⟨t, ht, -⟩ := Option.map_eq_some_iff.mp hrun
  exact ⟨t, ht, (counts_threads_iff ht).mpr (by decide +kernel)⟩

def nested : List (Nat × Move) :=
  (0, .start .mainLoop) :: advances 0 13 ++ [(0, .proceed), (0, .start .srdSetChange)] ++
    advances 0 13 ++ [(0, .proceed), (0, .leave)]

theorem nested_return_frees_slot :
    ∃ t, Runs.run step idle nested = some t ∧ .inside .mainLoop ∈ t.stack 0 ∧
      t.tables.runningNum = 0 ∧ ¬ Counted t := by
  have hrun : ((Runs.run step (idle : System Nat) nested).map fun t =>
      (t.stack 0, t.tables.runningNum)) =
      some ([.freeing .srdSetChange, .inside .mainLoop], 0) := by decide +kernel
  obtain ⟨t, ht, h⟩ := Option.map_eq_some_iff.mp hrun
  simp only [Prod.mk.injEq] at h
  obtain ⟨hstack, hnum⟩ := h
  have hmem : (.inside .mainLoop) ∈ t.stack 0 := by simp [hstack]
  refine ⟨t, ht, hmem, hnum, fun hc => ?_⟩
  have hin : 0 ∈ insideThreads t := ⟨_, hmem, rfl⟩
  have hpos := Set.ncard_pos hc.finite |>.mpr ⟨0, hin⟩
  have := hc.num
  omega

end CrustSworker.TaskCount

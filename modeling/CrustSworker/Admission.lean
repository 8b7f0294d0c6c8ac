import CrustSworker.ECalls
import CrustSworker.Runs
import Mathlib.Algebra.Group.Int.Defs

/-!
# Admission to the enclave

One call of `try_get_enclave` among any steps of the other threads. A `Log` is kept beside
the system: what the call itself has added to the shared tables, and what it has met there.
The status variable of the source is never reset, so a call that was blocked once still
returns `SGX_ERROR_DEVICE_BUSY` when it is let in later; and a call that times out erases
the record of its thread, also the one of the ecall it was issued from. The main theorem
says that these are the cases in which admission is not all or nothing, up to a race for one of
the two counters that are written without the lock.
-/

namespace CrustSworker.Admission

open ECalls

variable {T : Type} [DecidableEq T]

/-- `num`, `waiting` and `invoked` are sums over the steps of the call. `blocked` tells
whether it met a task that blocks it, `letIn` whether a section under the lock found room for
it, and `lostWaiting` and `lostInvoked` are what its writes of the two counters have lost of what
the others wrote since it had read them. -/
structure Log where
  num : Int
  waiting : Nat → Int
  invoked : EcallName → Int
  blocked : Bool
  letIn : Bool
  lostWaiting : Int
  lostInvoked : Int

def Log.empty : Log := ⟨0, fun _ => 0, fun _ => 0, false, false, 0, 0⟩

def seesBlocker (t : Tables T) (c : Call) : Bool :=
  match c.pc with
  | .block (b :: _) => decide ((t.invoked b).getD 0 > 0)
  | _ => false

def findsRoom (t : Tables T) (c : Call) : Bool := decide (c.pc = .critical) && hasRoom t c.prio

def losesWaiting (t : Tables T) (c : Call) : Int :=
  match c.pc with
  | .queueWrite seen => t.waiting c.prio - seen
  | .dequeueWrite seen => t.waiting c.prio - seen
  | _ => 0

/-- In front of `create` the call has seen that there is no counter. -/
def losesInvoked (t : Tables T) (c : Call) : Int :=
  match c.pc with
  | .create => (t.invoked c.name).getD 0
  | .invokeWrite seen => (t.invoked c.name).getD 0 - seen
  | .settleWrite seen => (t.invoked c.name).getD 0 - seen
  | _ => 0

def Log.note (l : Log) (t t' : Tables T) (c : Call) : Log where
  num := l.num + (t'.runningNum - t.runningNum)
  waiting p := l.waiting p + (t'.waiting p - t.waiting p)
  invoked n := l.invoked n + ((t'.invoked n).getD 0 - (t.invoked n).getD 0)
  blocked := l.blocked || seesBlocker t c
  letIn := l.letIn || findsRoom t c
  lostWaiting := l.lostWaiting + losesWaiting t c
  lostInvoked := l.lostInvoked + losesInvoked t c

def observe (tid : T) (x : System T × Log) (a : T × Move) : Option (System T × Log) :=
  match step x.1 a with
  | none => none
  | some s =>
    some (s,
      if a.1 = tid then
        match x.1.stack tid with
        | .calling c :: _ => x.2.note x.1.tables s.tables c
        | _ => x.2
      else x.2)

/-! ### The property -/

/-- The thread was registered: a first record, or one more call in the record it had. -/
def Registered (name : EcallName) (rec₀ rec : Option Counters) (num : Int) : Prop :=
  (rec₀ = none ∧ rec = some (Counters.single name) ∧ num = 1) ∨
    ∃ info, rec₀ = some info ∧ rec = some (info.add name 1) ∧ num = 0

/-- The call has left nothing of its own in the four tables. -/
structure NoTrace (rec₀ rec : Option Counters) (log : Log) : Prop where
  num : log.num = 0
  running : rec = rec₀
  waiting : ∀ p, log.waiting p = 0
  invoked : ∀ n, log.invoked n = 0

structure AllOrNothing (name : EcallName) (rec₀ rec : Option Counters) (status : SgxStatus)
    (log : Log) : Prop where
  success_iff : status = .success ↔ Registered name rec₀ rec log.num
  failed : status ≠ .success → NoTrace rec₀ rec log

/-! ### What a call has done at each point -/

def queued : Pc → Int
  | .queue | .queueWrite _ | .settle | .settleWrite _ | .returned => 0
  | _ => 1

def counted (status : SgxStatus) : Pc → Int
  | .queue | .queueWrite _ | .count | .create | .invoke | .invokeWrite _ => 0
  | .returned => if status = .success then 1 else 0
  | _ => 1

def decided : Pc → Bool
  | .dequeue | .dequeueWrite _ | .settle | .settleWrite _ | .returned => true
  | _ => false

def held (log : Log) : SgxStatus := if log.blocked then .deviceBusy else .success

inductive Fate (name : EcallName) (rec₀ rec : Option Counters) (c : Call) (log : Log) : Prop
  | undecided (hpc : decided c.pc = false) (hin : log.letIn = false) (hst : c.status = held log)
      (hrec : rec = rec₀) (hnum : log.num = 0)
  | admitted (hpc : decided c.pc = true) (hin : log.letIn = true) (hst : c.status = held log)
      (hreg : Registered name rec₀ rec log.num)
  | timedOut (hpc : decided c.pc = true) (hin : log.letIn = false)
      (hst : c.status = .serviceTimeout) (hrec : rec = none) (hnum : log.num = 0)

structure Progress (name : EcallName) (rec₀ rec : Option Counters) (c : Call) (log : Log) :
    Prop where
  name_eq : c.name = name
  waiting : ∀ p, log.waiting p =
    if p = taskPriority name then queued c.pc - log.lostWaiting else 0
  invoked : ∀ n, log.invoked n = if n = name then counted c.status c.pc - log.lostInvoked else 0
  failing : ∀ seen, c.pc = .settleWrite seen → c.status ≠ .success
  fate : Fate name rec₀ rec c log

theorem progress_start (name : EcallName) (rec : Option Counters) :
    Progress name rec rec (.start name) .empty where
  name_eq := rfl
  waiting p := by simp [Log.empty, Call.start, queued]
  invoked n := by simp [Log.empty, Call.start, counted]
  failing _ h := by cases h
  fate := .undecided rfl rfl rfl rfl rfl

/-! ### Steps of the call -/

theorem getD_add (m : Counters) (n k : EcallName) (d : Int) :
    (m.add n d k).getD 0 = (m k).getD 0 + if k = n then d else 0 := by
  unfold Counters.add
  by_cases h : k = n
  · subst h
    simp
  · simp [h]

omit [DecidableEq T] in
theorem hasRoom_mutex (t : Tables T) (m : Option T) (p : Nat) :
    hasRoom { t with mutex := m } p = hasRoom t p := by
  have hw : ∀ q, higherPrioWaiting { t with mutex := m } q = higherPrioWaiting t q := by
    intro q
    induction q with
    | zero => rfl
    | succ q ih => simp [higherPrioWaiting, ih]
  simp [hasRoom, hw]

theorem registered_register (t : Tables T) (tid : T) (name : EcallName) :
    Registered name (t.running tid) ((register t tid name).running tid)
      ((register t tid name).runningNum - t.runningNum) := by
  unfold register
  cases h : t.running tid with
  | none => exact .inl ⟨rfl, by simp, by simp⟩
  | some info => exact .inr ⟨info, rfl, by simp, by simp⟩

theorem register_waiting (t : Tables T) (tid : T) (name : EcallName) :
    (register t tid name).waiting = t.waiting := by
  unfold register
  split <;> rfl

theorem register_invoked (t : Tables T) (tid : T) (name : EcallName) :
    (register t tid name).invoked = t.invoked := by
  unfold register
  split <;> rfl

theorem callStep_name (t : Tables T) (tid : T) (c : Call) : (callStep t tid c).2.name = c.name := by
  unfold callStep Call.goto
  dsimp only
  split <;> (try split_ifs) <;> rfl

theorem callStep_waiting (t : Tables T) (tid : T) (c : Call) (p : Nat) :
    (callStep t tid c).1.waiting p - t.waiting p =
      if p = c.prio then queued (callStep t tid c).2.pc - queued c.pc - losesWaiting t c
      else 0 := by
  obtain ⟨name, pc, timeout, status⟩ := c
  cases pc with
  | queueWrite seen =>
    simp only [callStep, Call.goto, queued, losesWaiting, Function.update_apply]
    split_ifs with hp
    · rw [hp]
      omega
    · omega
  | dequeueWrite seen =>
    simp only [callStep, Call.goto, queued, losesWaiting, Function.update_apply]
    split_ifs with hp
    · rw [hp]
      omega
    · omega
  | block rest =>
    cases rest with
    | nil => simp [callStep, Call.goto, queued, losesWaiting]
    | cons b rest =>
      simp only [callStep, Call.goto]
      split_ifs <;> simp [queued, losesWaiting]
  | count =>
    simp only [callStep, Call.goto]
    split_ifs <;> simp [queued, losesWaiting]
  | slot =>
    simp only [callStep, Call.goto]
    split_ifs <;> simp [queued, losesWaiting]
  | tryLock =>
    simp only [callStep, Call.goto]
    split_ifs <;> simp [queued, losesWaiting]
  | critical =>
    simp only [callStep, Call.goto]
    split_ifs <;> simp [queued, losesWaiting, register_waiting]
  | loop =>
    simp only [callStep, Call.goto]
    split_ifs <;> simp [queued, losesWaiting]
  | settle =>
    simp only [callStep, Call.goto]
    split_ifs <;> simp [queued, losesWaiting]
  | _ => simp [callStep, Call.goto, queued, losesWaiting]

theorem getD_set (m : Counters) (n k : EcallName) (v : Int) :
    (m.set n v k).getD 0 = if k = n then v else (m k).getD 0 := by
  unfold Counters.set
  by_cases h : k = n
  · subst h
    simp
  · simp [h]

theorem callStep_invoked (t : Tables T) (tid : T) (c : Call) (n : EcallName)
    (hfailing : ∀ seen, c.pc = .settleWrite seen → c.status ≠ .success) :
    ((callStep t tid c).1.invoked n).getD 0 - (t.invoked n).getD 0 =
      if n = c.name then
        counted (callStep t tid c).2.status (callStep t tid c).2.pc - counted c.status c.pc
          - losesInvoked t c
      else 0 := by
  obtain ⟨name, pc, timeout, status⟩ := c
  cases pc with
  | create =>
    simp only [callStep, Call.goto, counted, losesInvoked, getD_set]
    split_ifs with hn
    · rw [hn]
      omega
    · omega
  | invoke =>
    simp only [callStep, Call.goto, counted, losesInvoked, getD_add]
    split_ifs
    · omega
    · omega
  | invokeWrite seen =>
    simp only [callStep, Call.goto, counted, losesInvoked, getD_set]
    split_ifs with hn
    · rw [hn]
      omega
    · omega
  | block rest =>
    cases rest with
    | nil => simp [callStep, Call.goto, counted, losesInvoked]
    | cons b rest =>
      simp only [callStep, Call.goto]
      split_ifs <;> simp [counted, losesInvoked, getD_add]
  | count =>
    simp only [callStep, Call.goto]
    split_ifs <;> simp [counted, losesInvoked]
  | slot =>
    simp only [callStep, Call.goto]
    split_ifs <;> simp [counted, losesInvoked]
  | tryLock =>
    simp only [callStep, Call.goto]
    split_ifs <;> simp [counted, losesInvoked]
  | critical =>
    simp only [callStep, Call.goto]
    split_ifs <;> simp [counted, losesInvoked, register_invoked]
  | loop =>
    simp only [callStep, Call.goto]
    split_ifs <;> simp [counted, losesInvoked]
  | settle =>
    simp only [callStep, Call.goto]
    by_cases hs : status = .success
    · simp [hs, counted, losesInvoked]
    · simp [hs, counted, losesInvoked, getD_add]
  | settleWrite seen =>
    have hs : status ≠ .success := hfailing seen rfl
    have hzero : counted status .returned = 0 := if_neg hs
    have hone : counted status (.settleWrite seen) = 1 := rfl
    simp only [callStep, Call.goto, hzero, hone, losesInvoked, getD_set]
    split_ifs with hn
    · rw [hn]
      omega
    · omega
  | returned =>
    simp only [callStep, losesInvoked]
    split_ifs
    · omega
    · omega
  | _ => simp [callStep, Call.goto, counted, losesInvoked]

theorem callStep_failing (t : Tables T) (tid : T) (c : Call) (seen : Int)
    (h : (callStep t tid c).2.pc = .settleWrite seen) : (callStep t tid c).2.status ≠ .success := by
  obtain ⟨name, pc, timeout, status⟩ := c
  cases pc with
  | block rest =>
    cases rest with
    | nil => cases h
    | cons b rest =>
      simp only [callStep, Call.goto] at h
      split_ifs at h
  | settle =>
    simp only [callStep, Call.goto] at h ⊢
    split_ifs at h ⊢ with hs
    · exact hs
  | count =>
    simp only [callStep, Call.goto] at h
    split_ifs at h
  | slot =>
    simp only [callStep, Call.goto] at h
    split_ifs at h
  | tryLock =>
    simp only [callStep, Call.goto] at h
    split_ifs at h
  | critical =>
    simp only [callStep, Call.goto] at h
    split_ifs at h
  | loop =>
    simp only [callStep, Call.goto] at h
    split_ifs at h
  | _ => cases h

section
variable {name : EcallName} {rec₀ rec : Option Counters} {c c' : Call} {log log' : Log}

omit [DecidableEq T] in
theorem Fate.keep {t t' : Tables T} (h : Fate name rec₀ rec c log)
    (hpc : decided c'.pc = decided c.pc) (hst : c'.status = c.status)
    (hnum : t'.runningNum = t.runningNum) (hb : seesBlocker t c = false)
    (hroom : findsRoom t c = false) : Fate name rec₀ rec c' (log.note t t' c) := by
  have hnum' : (log.note t t' c).num = log.num := by simp [Log.note, hnum]
  have hin : (log.note t t' c).letIn = log.letIn := by simp [Log.note, hroom]
  have hheld : held (log.note t t' c) = held log := by simp [held, Log.note, hb]
  cases h with
  | undecided hd hl hs hr hn =>
    exact .undecided (hpc.trans hd) (hin.trans hl) (by rw [hst, hs, hheld]) hr (hnum'.trans hn)
  | admitted hd hl hs hr =>
    exact .admitted (hpc.trans hd) (hin.trans hl) (by rw [hst, hs, hheld]) (by rwa [hnum'])
  | timedOut hd hl hs hr hn =>
    exact .timedOut (hpc.trans hd) (hin.trans hl) (hst.trans hs) hr (hnum'.trans hn)

theorem Fate.of_undecided (h : Fate name rec₀ rec c log) (hpc : decided c.pc = false) :
    log.letIn = false ∧ c.status = held log ∧ rec = rec₀ ∧ log.num = 0 := by
  cases h with
  | undecided _ hl hs hr hn => exact ⟨hl, hs, hr, hn⟩
  | admitted hd => simp [hpc] at hd
  | timedOut hd => simp [hpc] at hd

theorem callStep_fate {t : Tables T} {tid : T} (h : Fate name rec₀ (t.running tid) c log)
    (hn : c.name = name) :
    Fate name rec₀ ((callStep t tid c).1.running tid) (callStep t tid c).2
      (log.note t (callStep t tid c).1 c) := by
  obtain ⟨n, pc, timeout, status⟩ := c
  obtain rfl : n = name := hn
  cases pc with
  | block rest =>
    cases rest with
    | nil => exact h.keep rfl rfl rfl rfl rfl
    | cons b rest =>
      obtain ⟨hl, -, hr, hnum⟩ := h.of_undecided rfl
      by_cases hb : (t.invoked b).getD 0 > 0
      · have hb' : (t.invoked.add b 0 b).getD 0 > 0 := by simpa [getD_add] using hb
        simp only [callStep, if_pos hb']
        exact .undecided rfl (by simp [Log.note, findsRoom, hl])
          (by simp [held, Log.note, seesBlocker, hb]) hr (by simp [Log.note, hnum])
      · have hb' : ¬ (t.invoked.add b 0 b).getD 0 > 0 := by simpa [getD_add] using hb
        simp only [callStep, if_neg hb']
        exact h.keep rfl rfl rfl (by simp [seesBlocker, hb]) rfl
  | critical =>
    obtain ⟨hl, hs, hr, hnum⟩ := h.of_undecided rfl
    simp only [callStep, hasRoom_mutex]
    split_ifs with hroom
    · have hreg := registered_register { t with mutex := none } tid n
      refine .admitted rfl (by simp [Log.note, findsRoom, hroom]) ?_ ?_
      · simpa [held, Log.note, seesBlocker, Call.goto] using hs
      · simpa [Log.note, hnum, ← hr] using hreg
    · exact h.keep rfl rfl rfl rfl (by simp [findsRoom, hroom])
  | loop =>
    obtain ⟨hl, hs, hr, hnum⟩ := h.of_undecided rfl
    simp only [callStep]
    split_ifs
    · exact .timedOut rfl (by simp [Log.note, findsRoom, hl]) rfl (by simp)
        (by simp [Log.note, hnum])
    · exact h.keep rfl rfl rfl rfl rfl
    · exact h.keep rfl rfl rfl rfl rfl
  | count =>
    simp only [callStep]
    split_ifs
    · exact h.keep rfl rfl rfl rfl rfl
    · exact h.keep rfl rfl rfl rfl rfl
  | slot =>
    simp only [callStep]
    split_ifs
    · exact h.keep rfl rfl rfl rfl rfl
    · exact h.keep rfl rfl rfl rfl rfl
  | tryLock =>
    simp only [callStep]
    split_ifs
    · exact h.keep rfl rfl rfl rfl rfl
    · exact h.keep rfl rfl rfl rfl rfl
  | settle =>
    simp only [callStep]
    split_ifs
    · exact h.keep rfl rfl rfl rfl rfl
    · exact h.keep rfl rfl rfl rfl rfl
  | _ => exact h.keep rfl rfl rfl rfl rfl

theorem callStep_progress {t : Tables T} {tid : T}
    (h : Progress name rec₀ (t.running tid) c log) :
    Progress name rec₀ ((callStep t tid c).1.running tid) (callStep t tid c).2
      (log.note t (callStep t tid c).1 c) where
  name_eq := (callStep_name t tid c).trans h.name_eq
  waiting p := by
    have hstep := callStep_waiting t tid c p
    rw [Call.prio, h.name_eq] at hstep
    simp only [Log.note, h.waiting p, hstep]
    split_ifs
    · omega
    · rfl
  invoked n := by
    have hstep := callStep_invoked t tid c n h.failing
    rw [h.name_eq] at hstep
    simp only [Log.note, h.invoked n, hstep]
    split_ifs
    · omega
    · rfl
  failing := callStep_failing t tid c
  fate := callStep_fate h.fate h.name_eq

end

/-! ### Steps of the others -/

theorem callStep_running_ne (t : Tables T) {tid tid' : T} (c : Call) (h : tid' ≠ tid) :
    (callStep t tid c).1.running tid' = t.running tid' := by
  have hreg : ∀ (t : Tables T) name, (register t tid name).running tid' = t.running tid' := by
    intro t name
    unfold register
    split
    · exact Function.update_of_ne h _ _
    · exact Function.update_of_ne h _ _
  unfold callStep
  dsimp only
  split <;> (try split_ifs) <;> first
    | rfl
    | exact hreg _ _
    | exact Function.update_of_ne h _ _

theorem step_other {s s' : System T} {a : T × Move} {tid : T} (h : step s a = some s')
    (ha : tid ≠ a.1) :
    s'.stack tid = s.stack tid ∧ s'.tables.running tid = s.tables.running tid := by
  have hstack : ∀ fs t, (s.setStack a.1 fs t).stack tid = s.stack tid :=
    fun fs t => Function.update_of_ne ha _ _
  unfold step at h
  split at h
  · cases h
    exact ⟨hstack _ _, rfl⟩
  · cases h
    exact ⟨hstack _ _, rfl⟩
  · cases h
    exact ⟨hstack _ _, callStep_running_ne _ _ ha⟩
  · split_ifs at h
    · cases h
      exact ⟨hstack _ _, rfl⟩
    · cases h
      exact ⟨hstack _ _, rfl⟩
  · split_ifs at h
    cases h
    exact ⟨hstack _ _, Function.update_of_ne ha _ _⟩
  · cases h
    exact ⟨hstack _ _, rfl⟩
  · cases h
    exact ⟨hstack _ _, rfl⟩
  · cases h

/-! ### Whole calls -/

def InProgress (tid : T) (name : EcallName) (fs : List Frame) (rec₀ : Option Counters)
    (x : System T × Log) : Prop :=
  ∃ c, x.1.stack tid = .calling c :: fs ∧ Progress name rec₀ (x.1.tables.running tid) c x.2

theorem inProgress_step {tid : T} {name : EcallName} {fs : List Frame} {rec₀ : Option Counters}
    {x x' : System T × Log} {a : T × Move} (h : observe tid x a = some x')
    (ha : a.1 = tid → a.2 = .advance) (hi : InProgress tid name fs rec₀ x) :
    InProgress tid name fs rec₀ x' := by
  obtain ⟨c, hstack, hp⟩ := hi
  unfold observe at h
  split at h
  · cases h
  rename_i s' hs
  cases h
  by_cases htid : a.1 = tid
  · obtain ⟨tid', move⟩ := a
    obtain rfl : tid' = tid := htid
    obtain rfl : move = .advance := ha rfl
    simp only [step, hstack, Option.some.injEq] at hs
    subst hs
    refine ⟨(callStep x.1.tables tid' c).2, ?_, ?_⟩
    · exact Function.update_self _ _ _
    · simp only [if_true, hstack]
      exact callStep_progress hp
  · obtain ⟨hst, hrec⟩ := step_other hs (Ne.symm htid)
    refine ⟨c, hst.trans hstack, ?_⟩
    simp only [if_neg htid]
    rw [hrec]
    exact hp

/-- A call that has returned was all or nothing exactly when it was not let in after being
blocked, and did not time out with something of its thread's to lose, or with more lost of one
counter by one of its writes than by the other. -/
theorem allOrNothing_iff {tid : T} {name : EcallName} {fs : List Frame} {s₀ s : System T}
    {acts : List (T × Move)} {log : Log} {c : Call}
    (hstart : s₀.stack tid = .calling (.start name) :: fs)
    (hacts : ∀ a ∈ acts, a.1 = tid → a.2 = .advance)
    (hrun : Runs.run (observe tid) (s₀, .empty) acts = some (s, log))
    (hreturned : s.stack tid = .calling c :: fs) (hpc : c.pc = .returned) :
    AllOrNothing name (s₀.tables.running tid) (s.tables.running tid) c.status log ↔
      (log.letIn = true → log.blocked = false) ∧
      (log.letIn = false → s₀.tables.running tid = none ∧ log.lostWaiting = 0 ∧
        log.lostInvoked = 0) := by
  have hallowed : Runs.Allowed (observe tid) (fun _ a => a.1 = tid → a.2 = .advance)
      (s₀, Log.empty) acts := by
    rw [Runs.allowed_iff]
    intro before a after x hsplit _
    exact hacts a (by simp [hsplit])
  obtain ⟨c', hstack, hp⟩ : InProgress tid name fs (s₀.tables.running tid) (s, log) :=
    Runs.run_invariant_of (fun x a x' hx ha hi => inProgress_step hx ha hi) hrun hallowed
      ⟨.start name, hstart, progress_start name _⟩
  obtain rfl : c = c' := by simpa [hreturned] using hstack
  have hwaiting : ∀ p, log.waiting p = if p = taskPriority name then -log.lostWaiting else 0 := by
    intro p
    simpa [hpc, queued] using hp.waiting p
  cases hp.fate with
  | undecided hd => simp [hpc, decided] at hd
  | admitted _ hl hs hr =>
    constructor
    · rintro ⟨hsucc, -⟩
      refine ⟨fun _ => ?_, fun h => absurd (hl.symm.trans h) (by decide)⟩
      have hok := hs.symm.trans (hsucc.mpr hr)
      unfold held at hok
      split_ifs at hok with hb
      exact Bool.eq_false_iff.mpr hb
    · rintro ⟨hb, -⟩
      have hok : c.status = .success := by rw [hs, held, hb hl, if_neg Bool.false_ne_true]
      exact ⟨⟨fun _ => hr, fun _ => hok⟩, fun hne => absurd hok hne⟩
  | timedOut _ hl hs hr hn =>
    have hne : c.status ≠ .success := by
      rw [hs]
      decide
    have hnot : ¬ Registered name (s₀.tables.running tid) (s.tables.running tid) log.num := by
      rintro (⟨-, h, -⟩ | ⟨_, -, h, -⟩)
      · exact nomatch hr.symm.trans h
      · exact nomatch hr.symm.trans h
    have hinvoked : ∀ n, log.invoked n = if n = name then -log.lostInvoked else 0 := by
      intro n
      simpa [hpc, counted, hne] using hp.invoked n
    constructor
    · rintro ⟨-, hf⟩
      refine ⟨fun h => absurd (hl.symm.trans h) (by decide), fun _ => ?_⟩
      have hw0 := (hf hne).waiting (taskPriority name)
      rw [hwaiting, if_pos rfl] at hw0
      have hi0 := (hf hne).invoked name
      rw [hinvoked, if_pos rfl] at hi0
      exact ⟨(hf hne).running.symm.trans hr, by omega, by omega⟩
    · rintro ⟨-, hlost⟩
      obtain ⟨hrec, hlostw, hlosti⟩ := hlost hl
      refine ⟨⟨fun h => absurd h hne, fun h => absurd h hnot⟩, fun _ => ?_⟩
      refine ⟨hn, hr.trans hrec.symm, fun p => ?_, fun n => ?_⟩
      · rw [hwaiting, hlostw, neg_zero, ite_self]
      · rw [hinvoked, hlosti, neg_zero, ite_self]

/-! ### Two threads -/

def advances (tid n : Nat) : List (Nat × Move) := List.replicate n (tid, .advance)

def idleSystem : System Nat := ⟨.empty, fun _ => []⟩

def confirmAlone : List (Nat × Move) := [(0, .start .confirmFile)]

theorem allOrNothing_alone :
    ∃ s₀ s c log, Runs.run step idleSystem confirmAlone = some s₀ ∧
      Runs.run (observe 0) (s₀, .empty) (advances 0 14) = some (s, log) ∧
      s.stack 0 = [.calling c] ∧
      AllOrNothing .confirmFile (s₀.tables.running 0) (s.tables.running 0) c.status log := by
  have hrun : ((Runs.run step idleSystem confirmAlone).bind fun s₀ =>
      (Runs.run (observe 0) (s₀, .empty) (advances 0 14)).map fun x =>
        (s₀.stack 0, x.1.stack 0, x.2.letIn, x.2.blocked)) =
      some ([.calling (.start .confirmFile)], [.calling ⟨.confirmFile, .returned, 0, .success⟩],
        true, false) := by decide +kernel
  obtain ⟨s₀, hs₀, h⟩ := Option.bind_eq_some_iff.mp hrun
  obtain ⟨⟨s, log⟩, hs, h⟩ := Option.map_eq_some_iff.mp h
  simp only [Prod.mk.injEq] at h
  obtain ⟨hstart, hstack, hin, hb⟩ := h
  refine ⟨s₀, s, _, log, hs₀, hs, hstack, ?_⟩
  exact (allOrNothing_iff hstart (by decide) hs hstack rfl).mpr
    ⟨fun _ => hb, fun h => absurd (hin.symm.trans h) (by decide)⟩

def confirmDuringReport : List (Nat × Move) :=
  (1, .start .genAndUploadWorkReport) :: advances 1 6 ++ confirmAlone

def blockedThenLetIn : List (Nat × Move) :=
  advances 0 8 ++ advances 1 7 ++ [(1, .proceed), (1, .leave), (1, .freed), (1, .freed)] ++
    advances 0 9

/-- The call returns an error and the wrapper gives up, but the thread stays registered. -/
theorem blocked_call_leaks_slot :
    ∃ s₀ s log, Runs.run step idleSystem confirmDuringReport = some s₀ ∧
      s₀.stack 0 = [.calling (.start .confirmFile)] ∧
      Runs.run (observe 0) (s₀, .empty) blockedThenLetIn = some (s, log) ∧
      s.stack 0 = [.calling ⟨.confirmFile, .returned, 0, .deviceBusy⟩] ∧ s.stack 1 = [] ∧
      s.tables.runningNum = 1 ∧ log.num = 1 ∧
      ¬ AllOrNothing .confirmFile (s₀.tables.running 0) (s.tables.running 0) .deviceBusy log := by
  have hrun : ((Runs.run step idleSystem confirmDuringReport).bind fun s₀ =>
      (Runs.run (observe 0) (s₀, .empty) blockedThenLetIn).map fun x =>
        (s₀.stack 0, x.1.stack 0, x.1.stack 1, x.1.tables.runningNum, x.2.num)) =
      some ([.calling (.start .confirmFile)], [.calling ⟨.confirmFile, .returned, 0, .deviceBusy⟩],
        [], 1, 1) := by decide +kernel
  obtain ⟨s₀, hs₀, h⟩ := Option.bind_eq_some_iff.mp hrun
  obtain ⟨⟨s, log⟩, hs, h⟩ := Option.map_eq_some_iff.mp h
  simp only [Prod.mk.injEq] at h
  obtain ⟨hstart, hstack, hother, hnum, hown⟩ := h
  refine ⟨s₀, s, log, hs₀, hstart, hs, hstack, hother, hnum, hown, fun hall => ?_⟩
  have hzero := (hall.failed (by decide)).num
  rw [hown] at hzero
  exact absurd hzero (by decide)

end CrustSworker.Admission

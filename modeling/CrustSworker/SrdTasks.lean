import CrustSworker.Runs
import CrustSworker.Srd

/-!
# The pending srd tasks

`g_srd_change` under concurrent calls of `ecall_srd_set_change` and takes by the main loop. Each
section under a lock is one step; a call has three of them: it reads the pending number, looks
at the number of G hashes, and writes the sum back. Between the first and the last the others
do what they want, and the write does not look again.
-/

namespace CrustSworker.SrdTasks

open Srd

/-- How far a call is; `seen` is what `get_srd_change` returned to it and `sum` the number it
is going to write. -/
inductive Stage where
  | called
  | read (seen sum : Int)
  | checked (seen sum : Int)
  | done
  deriving DecidableEq, Repr

structure SetCall where
  change : Int
  stage : Stage
  deriving DecidableEq, Repr

/-- `taken` is the total of what `srd_change` has taken, `calls` are all calls made so far. -/
structure State where
  change : Int
  srd : PathMap
  taken : Int
  calls : List SetCall

inductive Act where
  | call (change : Int)
  | advance (i : Nat)
  | take
  | srd (m : PathMap)

def limitChange (srdNum : Nat) (change : Int) : Int :=
  if change > 0 then
    if (srdNum : Int) ≥ srdNumberUpperLimit then 0
    else if srdNum + change > srdNumberUpperLimit then srdNumberUpperLimit - srdNum
    else change
  else change

def turnNum (change : Int) : Int := if change > srdMaxPerTurn then srdMaxPerTurn else change

def advanceCall (s : State) (i : Nat) (c : SetCall) : Option State :=
  match c.stage with
  | .called =>
    some { s with calls := s.calls.set i { c with stage := .read s.change (s.change + c.change) } }
  | .read seen sum =>
    let sum := limitChange (srdTotal s.srd) sum
    some { s with calls := s.calls.set i { c with stage := .checked seen sum } }
  | .checked _ sum =>
    some { s with change := sum, calls := s.calls.set i { c with stage := .done } }
  | .done => none

def step (s : State) : Act → Option State
  | .call change => some { s with calls := s.calls ++ [⟨change, .called⟩] }
  | .advance i =>
    match s.calls[i]? with
    | none => none
    | some c => advanceCall s i c
  | .take =>
    some { s with
      change := s.change - turnNum s.change
      taken := s.taken + turnNum s.change }
  | .srd m => some { s with srd := m }

/-! ### Conservation -/

def written (c : SetCall) : Int := if c.stage = .done then c.change else 0

structure Conserved (start : Int) (s : State) : Prop where
  balance : s.change + s.taken = start + (s.calls.map written).sum
  final : (∀ c ∈ s.calls, c.stage = .done) →
    s.change + s.taken = start + (s.calls.map SetCall.change).sum

def stageOf (s : State) (i : Nat) : Option Stage := s.calls[i]?.map SetCall.stage

def withinLimit (s : State) : Act → Bool
  | .advance i =>
    match stageOf s i with
    | some (.read _ sum) => decide (sum > 0 → srdTotal s.srd + sum ≤ srdNumberUpperLimit)
    | _ => true
  | _ => true

/-- A call that writes finds the pending number it has read. -/
def unchangedSinceRead (s : State) : Act → Bool
  | .advance i =>
    match stageOf s i with
    | some (.checked seen _) => decide (seen = s.change)
    | _ => true
  | _ => true

theorem limitChange_of_le {srdNum : Nat} {sum : Int}
    (h : sum > 0 → srdNum + sum ≤ srdNumberUpperLimit) : limitChange srdNum sum = sum := by
  unfold limitChange
  split_ifs with hpos hge hgt
  · have := h hpos
    omega
  · have := h hpos
    omega
  · rfl
  · rfl

theorem sum_set {l : List SetCall} {i : Nat} {c : SetCall} (hi : l[i]? = some c) (c' : SetCall) :
    ((l.set i c').map written).sum = (l.map written).sum + (written c' - written c) := by
  induction l generalizing i with
  | nil => cases hi
  | cons d l ih =>
    cases i with
    | zero =>
      obtain rfl : d = c := by simpa using hi
      simp only [List.set_cons_zero, List.map_cons, List.sum_cons]
      omega
    | succ i =>
      have h := ih (by simpa using hi)
      simp only [List.set_cons_succ, List.map_cons, List.sum_cons]
      omega

theorem sum_written {l : List SetCall} (h : ∀ c ∈ l, c.stage = .done) :
    l.map written = l.map SetCall.change := by
  refine List.map_congr_left fun c hc => ?_
  rw [written, if_pos (h c hc)]

theorem conserved_iff {start : Int} {s : State} :
    Conserved start s ↔ s.change + s.taken = start + (s.calls.map written).sum := by
  refine ⟨Conserved.balance, fun h => ⟨h, fun hall => ?_⟩⟩
  rw [← sum_written hall]
  exact h

def Faithful (c : SetCall) : Prop :=
  match c.stage with
  | .read seen sum => sum = seen + c.change
  | .checked seen sum => sum = seen + c.change
  | _ => True

structure Inv (start : Int) (s : State) : Prop where
  conserved : Conserved start s
  faithful : ∀ c ∈ s.calls, Faithful c

theorem Inv.set {start : Int} {s s' : State} (h : Inv start s) {i : Nat} {c' : SetCall}
    (hcalls : s'.calls = s.calls.set i c') (hc : Faithful c') (hs' : Conserved start s') :
    Inv start s' := by
  refine ⟨hs', fun d hd => ?_⟩
  rw [hcalls] at hd
  rcases List.mem_or_eq_of_mem_set hd with hd | rfl
  · exact h.faithful d hd
  · exact hc

theorem step_conserved {start : Int} {s s' : State} {a : Act} (hstep : step s a = some s')
    (hlimit : withinLimit s a = true) (h : Inv start s) :
    (unchangedSinceRead s a = true → Inv start s') ∧
      (Conserved start s' → unchangedSinceRead s a = true) := by
  have hbal := h.conserved.balance
  cases a with
  | call change =>
    cases hstep
    refine ⟨fun _ => ⟨conserved_iff.mpr ?_, fun c hc => ?_⟩, fun _ => rfl⟩
    · simp only [List.map_append, List.map_cons, List.map_nil, List.sum_append, List.sum_cons,
        List.sum_nil, written, reduceCtorEq, if_false]
      omega
    · rcases List.mem_append.mp hc with hc | hc
      · exact h.faithful c hc
      · rw [List.mem_singleton.mp hc]
        trivial
  | take =>
    cases hstep
    refine ⟨fun _ => ⟨conserved_iff.mpr ?_, h.faithful⟩, fun _ => rfl⟩
    dsimp only
    omega
  | srd m =>
    cases hstep
    exact ⟨fun _ => ⟨conserved_iff.mpr hbal, h.faithful⟩, fun _ => rfl⟩
  | advance i =>
    simp only [step] at hstep
    split at hstep
    · cases hstep
    rename_i c hc
    have hfaithful := h.faithful c (List.mem_of_getElem? hc)
    have hstage : stageOf s i = some c.stage := by rw [stageOf, hc, Option.map_some]
    obtain ⟨change, stage⟩ := c
    cases stage with
    | called =>
      cases hstep
      have hsum := sum_set hc ⟨change, .read s.change (s.change + change)⟩
      simp only [written, reduceCtorEq, if_false] at hsum
      refine ⟨fun _ => h.set rfl rfl (conserved_iff.mpr ?_), fun _ => ?_⟩
      · dsimp only
        omega
      · simp only [unchangedSinceRead, hstage]
    | read seen sum =>
      cases hstep
      simp only [withinLimit, hstage, decide_eq_true_eq] at hlimit
      have hcut := limitChange_of_le hlimit
      have hsum := sum_set hc ⟨change, .checked seen (limitChange (srdTotal s.srd) sum)⟩
      simp only [written, reduceCtorEq, if_false] at hsum
      refine ⟨fun _ => h.set rfl ?_ (conserved_iff.mpr ?_), fun _ => ?_⟩
      · exact hcut.trans hfaithful
      · dsimp only
        omega
      · simp only [unchangedSinceRead, hstage]
    | checked seen sum =>
      cases hstep
      have hsum := sum_set hc ⟨change, .done⟩
      have hwrite : sum = seen + change := hfaithful
      simp only [written, reduceCtorEq, if_false, if_true] at hsum
      simp only [unchangedSinceRead, hstage, decide_eq_true_eq]
      refine ⟨fun hok => h.set rfl trivial (conserved_iff.mpr ?_), fun hcons => ?_⟩
      · dsimp only
        omega
      · have hbal' := hcons.balance
        dsimp only at hbal'
        omega
    | done => cases hstep

/-- The pending number and what was taken add up to what was asked for in every state exactly
when no call writes over a number that changed since it was read. -/
theorem tasks_conserved_iff {start : Int} {m : PathMap} {acts : List Act} {t : State}
    (hrun : Runs.run step ⟨start, m, 0, []⟩ acts = some t)
    (hlimit : Runs.Allowed step (fun s a => withinLimit s a = true) ⟨start, m, 0, []⟩ acts) :
    Runs.Always step (Conserved start) ⟨start, m, 0, []⟩ acts ↔
      Runs.Allowed step (fun s a => unchangedSinceRead s a = true) ⟨start, m, 0, []⟩ acts := by
  have h0 : Inv start ⟨start, m, 0, []⟩ := by
    refine ⟨conserved_iff.mpr (by simp), fun c hc => ?_⟩
    cases hc
  exact Runs.always_iff_allowed_of (fun _ h => h.conserved)
    (fun _ _ _ hstep hlimit h => step_conserved hstep hlimit h) hrun hlimit h0

/-! ### Two calls -/

def idle : State := ⟨0, [], 0, []⟩

def oneByOne : List Act :=
  [.call 1, .advance 0, .advance 0, .advance 0, .call 2, .advance 1, .advance 1, .advance 1, .take]

theorem tasks_conserved_oneByOne :
    ∃ t, Runs.run step idle oneByOne = some t ∧ t.taken = 3 ∧
      Runs.Always step (Conserved 0) idle oneByOne := by
  exact ⟨_, rfl, rfl, (tasks_conserved_iff rfl (by decide +kernel)).mpr (by decide +kernel)⟩

def interleaved : List Act :=
  [.call 1, .call 2, .advance 0, .advance 1, .advance 0, .advance 1, .advance 0, .advance 1]

theorem concurrent_call_is_lost :
    ∃ t, Runs.run step idle interleaved = some t ∧
      Runs.Allowed step (fun s a => withinLimit s a = true) idle interleaved ∧
      t.calls = [⟨1, .done⟩, ⟨2, .done⟩] ∧ t.change + t.taken = 2 ∧ ¬ Conserved 0 t :=
  ⟨_, rfl, by decide +kernel, rfl, rfl, fun h => absurd h.balance (by decide)⟩

end CrustSworker.SrdTasks

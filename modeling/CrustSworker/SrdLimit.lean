import CrustSworker.SrdInfo
import CrustSworker.SrdTasks

/-!
# The srd limit

The number of G hashes under tasks, sealing and deletion. `set_srd_change` cuts the pending
number so that it fits beside the hashes that are there. What a turn of the main loop has
taken is no longer pending and not yet a hash: while it is being sealed, the check of another
call does not see it.
-/

namespace CrustSworker.SrdLimit

open OrderedMap Srd
open SrdTasks (SetCall Stage limitChange turnNum)

variable {τ : Type}

/-- `toSeal` is how much of what was taken still waits for its `srd_increase`. -/
structure State (τ : Type) where
  change : Int
  toSeal : Nat
  calls : List SetCall
  wl : Workload τ

inductive Act where
  | call (change : Int)
  | advance (i : Nat)
  | take
  | increase (env : IncreaseEnv) (path : Bytes)
  | giveUp (num : Nat)
  | decrease (answer : Nat → CrustStatus) (change : Int) (del : DelIndex)
  | updateMetadata (answer : Nat → CrustStatus) (hashs : Bytes)

def total (s : State τ) : Nat := srdTotal s.wl.srdPath2hashs

def tasks (s : State τ) : SrdTasks.State := ⟨s.change, s.wl.srdPath2hashs, 0, s.calls⟩

def onTasks (s : State τ) (a : SrdTasks.Act) : Option (State τ) :=
  (SrdTasks.step (tasks s) a).map fun t => { s with change := t.change, calls := t.calls }

section
variable (sha256 : Bytes → Hash) (mem : Mem)

def onSrd (s : State τ) (a : SrdInfo.Act) : Option (State τ) :=
  (SrdInfo.step sha256 mem s.wl a).map fun wl => { s with wl := wl }

/-- The app asks for one `srd_increase` per unit it was given, or has no room for it. A
negative number is handed to `srd_decrease`, which may also be called at any other time. -/
def step (s : State τ) : Act → Option (State τ)
  | .call change => onTasks s (.call change)
  | .advance i => onTasks s (.advance i)
  | .take =>
    (onTasks s .take).map fun s' => { s' with toSeal := s.toSeal + (turnNum s.change).toNat }
  | .increase env path =>
    if s.toSeal = 0 then none
    else onSrd sha256 mem { s with toSeal := s.toSeal - 1 } (.increase env path)
  | .giveUp num => if s.toSeal < num then none else some { s with toSeal := s.toSeal - num }
  | .decrease answer change del => onSrd sha256 mem s (.decrease answer change del)
  | .updateMetadata answer hashs => onSrd sha256 mem s (.updateMetadata answer hashs)

end

/-- What is still to be sealed makes no difference: a call that checks a positive number would
be let through with it counted in, and nothing is taken in front of the write of a call that
has checked without it. -/
def sealingFits (s : State τ) : Act → Bool
  | .advance i =>
    match SrdTasks.stageOf (tasks s) i with
    | some (.read _ sum) =>
      decide (0 < sum → s.toSeal = 0 ∨ total s + s.toSeal + sum ≤ srdNumberUpperLimit)
    | _ => true
  | .take =>
    s.calls.all fun c =>
      match c.stage with
      | .checked _ sum =>
        decide (0 < sum → 0 < s.change →
          total s + s.toSeal + turnNum s.change + sum ≤ srdNumberUpperLimit)
      | _ => true
  | _ => true

/-! ### Counting the hashes -/

section
variable {m : PathMap}

theorem srdTotal_insertKey (hm : Sorted ltBytes m) (path : Bytes) (v : List Bytes) :
    srdTotal (insertKey ltBytes path v m) + (hashsOf m path).length = srdTotal m + v.length := by
  have h := weigh_insertKey isOrder_ltBytes hm List.length path v
  have hat : weightAt List.length m path = (hashsOf m path).length := by
    unfold weightAt hashsOf
    cases findKey path m with
    | none => rfl
    | some hs => rfl
  rw [hat] at h
  exact h

theorem srdTotal_pushHash (hm : Sorted ltBytes m) (path g : Bytes) :
    srdTotal (Workload.pushHash m path g) = srdTotal m + 1 := by
  have h := srdTotal_insertKey hm path (hashsOf m path ++ [g])
  rw [List.length_append, List.length_singleton] at h
  have hpush : Workload.pushHash m path g = insertKey ltBytes path (hashsOf m path ++ [g]) m := rfl
  rw [hpush]
  omega

end

structure Shrunk (m m' : PathMap) : Prop where
  sorted : Sorted ltBytes m'
  total : srdTotal m' ≤ srdTotal m

namespace Shrunk

variable {m m₁ m₂ : PathMap}

theorem refl (hm : Sorted ltBytes m) : Shrunk m m := ⟨hm, Nat.le_refl _⟩

theorem trans (h₁ : Shrunk m m₁) (h₂ : Shrunk m₁ m₂) : Shrunk m m₂ :=
  ⟨h₂.sorted, Nat.le_trans h₂.total h₁.total⟩

theorem insertKey (hm : Sorted ltBytes m) {path : Bytes} {v : List Bytes}
    (hv : v.length ≤ (hashsOf m path).length) : Shrunk m (insertKey ltBytes path v m) := by
  have h := srdTotal_insertKey hm path v
  exact ⟨hm.insertKey isOrder_ltBytes _ _, by omega⟩

end Shrunk

theorem erasePath_shrunk {mem : Mem} {path : Bytes} {is : List Nat} {m gone m' gone' : PathMap}
    (hm : Sorted ltBytes m) (h : erasePath mem path is m gone = some (m', gone')) :
    Shrunk m m' := by
  induction is generalizing m gone with
  | nil =>
    cases h
    exact .refl hm
  | cons i is ih =>
    simp only [erasePath] at h
    split at h
    · cases h
    · have hone := Shrunk.insertKey hm (List.length_eraseIdx_le (hashsOf m path) i)
      exact hone.trans (ih hone.sorted h)

theorem eraseChosen_shrunk {mem : Mem} {del : DelIndex} {m gone m' gone' : PathMap}
    (hm : Sorted ltBytes m) (h : eraseChosen mem del m gone = some (m', gone')) :
    Shrunk m m' := by
  induction del generalizing m gone with
  | nil =>
    cases h
    exact .refl hm
  | cons entry del ih =>
    simp only [eraseChosen] at h
    split at h
    · cases h
    · rename_i r hr
      have hone := erasePath_shrunk hm hr
      exact hone.trans (ih hone.sorted h)

theorem popHashs_shrunk (answer : Nat → CrustStatus) (path : Bytes) (n : Nat) (u : Update)
    (hm : Sorted ltBytes u.m) : Shrunk u.m (popHashs answer path n u).m := by
  induction n generalizing u with
  | zero => exact .refl hm
  | succ n ih =>
    have hlen : (hashsOf u.m path).dropLast.length ≤ (hashsOf u.m path).length := by
      rw [List.length_dropLast]
      exact Nat.sub_le _ _
    have hone : Shrunk u.m (popHash answer path u).m := Shrunk.insertKey hm hlen
    exact hone.trans (ih _ hone.sorted)

theorem updatePaths_shrunk (answer : Nat → CrustStatus) (fields : List (Bytes × JSON)) (u : Update)
    (hm : Sorted ltBytes u.m) : Shrunk u.m (fields.foldl (updatePath answer) u).m := by
  induction fields generalizing u with
  | nil => exact .refl hm
  | cons entry fields ih =>
    have hlook : Shrunk u.m (insertKey ltBytes entry.1 (hashsOf u.m entry.1) u.m) :=
      .insertKey hm (Nat.le_refl _)
    have hone : Shrunk u.m (updatePath answer u entry).m :=
      hlook.trans (popHashs_shrunk answer entry.1 _
        { u with m := insertKey ltBytes entry.1 (hashsOf u.m entry.1) u.m } hlook.sorted)
    exact hone.trans (ih _ hone.sorted)

section
variable {sha256 : Bytes → Hash} {mem : Mem} {wl wl' : Workload τ}

theorem decrease_shrunk (hm : Sorted ltBytes wl.srdPath2hashs) {answer : Nat → CrustStatus}
    {change : Int} {del : DelIndex}
    (h : SrdInfo.step sha256 mem wl (.decrease answer change del) = some wl') :
    Shrunk wl.srdPath2hashs wl'.srdPath2hashs := by
  obtain ⟨r, hr, rfl⟩ := Option.map_eq_some_iff.mp h
  unfold srdDecrease at hr
  dsimp only at hr
  split at hr
  · cases hr
    exact .refl hm
  · obtain ⟨e, he, rfl⟩ := Option.map_eq_some_iff.mp hr
    exact eraseChosen_shrunk hm he

theorem updateMetadata_shrunk (hm : Sorted ltBytes wl.srdPath2hashs) {answer : Nat → CrustStatus}
    {hashs : Bytes} (h : SrdInfo.step sha256 mem wl (.updateMetadata answer hashs) = some wl') :
    Shrunk wl.srdPath2hashs wl'.srdPath2hashs := by
  simp only [SrdInfo.step, srdUpdateMetadata] at h
  split at h
  · cases h
  · cases h
    exact updatePaths_shrunk answer _ ⟨wl.srdPath2hashs, wl.srdInfoJson, 0⟩ hm

theorem increase_total (sha256 : Bytes → Hash) (hm : Sorted ltBytes wl.srdPath2hashs) (env : IncreaseEnv) (path : Bytes) :
    Sorted ltBytes (srdIncrease sha256 env wl path).srdPath2hashs ∧
      srdTotal (srdIncrease sha256 env wl path).srdPath2hashs ≤ srdTotal wl.srdPath2hashs + 1 := by
  unfold srdIncrease
  split
  · exact ⟨hm, Nat.le_succ _⟩
  · exact ⟨hm.insertKey isOrder_ltBytes _ _, Nat.le_of_eq (srdTotal_pushHash hm _ _)⟩

end

/-! ### One step -/

theorem limitChange_fits (srdNum : Nat) (sum : Int) (h : (srdNum : Int) ≤ srdNumberUpperLimit) :
    srdNum + max (limitChange srdNum sum) 0 ≤ srdNumberUpperLimit := by
  unfold limitChange
  split_ifs
  · simpa using h
  · omega
  · omega
  · omega

/-- Hashes, sealing and the pending number fit together, and so does what a call that has
checked is about to write. -/
structure Room (s : State τ) : Prop where
  sorted : Sorted ltBytes s.wl.srdPath2hashs
  pending : total s + s.toSeal + max s.change 0 ≤ srdNumberUpperLimit
  checked : ∀ c ∈ s.calls, ∀ seen sum, c.stage = .checked seen sum →
    total s + s.toSeal + max sum 0 ≤ srdNumberUpperLimit

theorem Room.lighter {s s' : State τ} (h : Room s) (hm : Sorted ltBytes s'.wl.srdPath2hashs)
    (hle : total s' + s'.toSeal ≤ total s + s.toSeal) (hchange : s'.change = s.change)
    (hcalls : s'.calls = s.calls) : Room s' := by
  refine ⟨hm, ?_, fun c hc seen sum hstage => ?_⟩
  · have := h.pending
    rw [hchange]
    omega
  · have := h.checked c (hcalls ▸ hc) seen sum hstage
    omega

theorem Room.call {s s' : State τ} (h : Room s) (c' : SetCall) (hwl : s'.wl = s.wl)
    (hseal : s'.toSeal = s.toSeal) (hcalls : ∀ c ∈ s'.calls, c ∈ s.calls ∨ c = c')
    (hchange : total s + s.toSeal + max s'.change 0 ≤ srdNumberUpperLimit)
    (hc' : ∀ seen sum, c'.stage = .checked seen sum →
      total s + s.toSeal + max sum 0 ≤ srdNumberUpperLimit) : Room s' := by
  have htotal : total s' = total s := by rw [total, hwl, total]
  refine ⟨hwl ▸ h.sorted, ?_, fun c hc seen sum hstage => ?_⟩
  · rw [htotal, hseal]
    exact hchange
  · rw [htotal, hseal]
    rcases hcalls c hc with hc | rfl
    · exact h.checked c hc seen sum hstage
    · exact hc' seen sum hstage

section
variable {sha256 : Bytes → Hash} {mem : Mem} {s s' : State τ}

theorem advance_room {i : Nat} (hstep : onTasks s (.advance i) = some s')
    (hok : sealingFits s (.advance i) = true) (h : Room s) : Room s' := by
  obtain ⟨t, ht, rfl⟩ := Option.map_eq_some_iff.mp hstep
  simp only [SrdTasks.step] at ht
  split at ht
  · cases ht
  rename_i c hc
  have hmem : c ∈ s.calls := List.mem_of_getElem? hc
  have hstage : SrdTasks.stageOf (tasks s) i = some c.stage := by
    rw [SrdTasks.stageOf, hc, Option.map_some]
  have hset : ∀ c' d : SetCall, d ∈ s.calls.set i c' → d ∈ s.calls ∨ d = c' :=
    fun c' d hd => List.mem_or_eq_of_mem_set hd
  obtain ⟨change, stage⟩ := c
  cases stage with
  | called =>
    cases ht
    refine h.call _ rfl rfl (hset _) h.pending fun seen sum hchk => ?_
    cases hchk
  | read seen sum =>
    cases ht
    refine h.call _ rfl rfl (hset _) h.pending fun seen' sum' hchk => ?_
    obtain rfl : limitChange (total s) sum = sum' := by
      cases hchk
      rfl
    have hpending := h.pending
    by_cases hwait : s.toSeal = 0
    · have hcut := limitChange_fits (total s) sum (by omega)
      rw [hwait]
      omega
    · have hwhole : 0 < sum → total s + s.toSeal + sum ≤ srdNumberUpperLimit :=
        fun hpos => by
          simp only [sealingFits, hstage, decide_eq_true_eq] at hok
          exact (hok hpos).resolve_left hwait
      rw [SrdTasks.limitChange_of_le fun hpos => by
        have := hwhole hpos
        omega]
      omega
  | checked seen sum =>
    cases ht
    refine h.call _ rfl rfl (hset _) (h.checked _ hmem seen sum rfl) fun seen' sum' hchk => ?_
    cases hchk
  | done => cases ht

theorem turnNum_le {change : Int} (h : 0 < change) : 0 < turnNum change ∧ turnNum change ≤ change := by
  unfold turnNum srdMaxPerTurn
  split_ifs <;> omega

theorem take_room (hok : sealingFits s .take = true) (h : Room s) :
    Room { s with
      change := s.change - turnNum s.change
      toSeal := s.toSeal + (turnNum s.change).toNat } := by
  have hpending := h.pending
  by_cases hpos : 0 < s.change
  · obtain ⟨hturn, hle⟩ := turnNum_le hpos
    refine ⟨h.sorted, ?_, fun c hc seen sum hstage => ?_⟩
    · simp only [total] at hpending ⊢
      omega
    · have hroom := h.checked c hc seen sum hstage
      by_cases hsum : 0 < sum
      · have hfits := List.all_eq_true.mp hok c hc
        simp only [hstage, decide_eq_true_eq] at hfits
        have := hfits hsum hpos
        simp only [total] at this ⊢
        omega
      · simp only [total] at hpending ⊢
        omega
  · have hturn : turnNum s.change = s.change := by
      unfold turnNum srdMaxPerTurn
      rw [if_neg (by omega)]
    refine ⟨h.sorted, ?_, fun c hc seen sum hstage => ?_⟩
    · simp only [total] at hpending ⊢
      omega
    · have hroom := h.checked c hc seen sum hstage
      simp only [total] at hroom ⊢
      omega

theorem step_room {a : Act} (hstep : step sha256 mem s a = some s') (hok : sealingFits s a = true)
    (h : Room s) : Room s' := by
  cases a with
  | call change =>
    cases hstep
    refine h.call ⟨change, .called⟩ rfl rfl (fun c hc => ?_) h.pending
      fun seen sum hchk => ?_
    · exact (List.mem_append.mp hc).imp id List.mem_singleton.mp
    · cases hchk
  | advance i => exact advance_room hstep hok h
  | take =>
    cases hstep
    exact take_room hok h
  | increase env path =>
    simp only [step] at hstep
    split at hstep
    · cases hstep
    · cases hstep
      obtain ⟨hsorted, htotal⟩ := increase_total sha256 h.sorted env path
      refine h.lighter hsorted ?_ rfl rfl
      simp only [total]
      omega
  | giveUp num =>
    simp only [step] at hstep
    split at hstep
    · cases hstep
    · cases hstep
      refine h.lighter h.sorted ?_ rfl rfl
      simp only [total]
      omega
  | decrease answer change del =>
    obtain ⟨wl, hwl, rfl⟩ := Option.map_eq_some_iff.mp hstep
    have hshrunk := decrease_shrunk h.sorted hwl
    exact h.lighter hshrunk.sorted (Nat.add_le_add_right hshrunk.total _) rfl rfl
  | updateMetadata answer hashs =>
    obtain ⟨wl, hwl, rfl⟩ := Option.map_eq_some_iff.mp hstep
    have hshrunk := updateMetadata_shrunk h.sorted hwl
    exact h.lighter hshrunk.sorted (Nat.add_le_add_right hshrunk.total _) rfl rfl

end

/-! ### Whole runs -/

def quiet (change : Int) (wl : Workload τ) : State τ := ⟨change, 0, [], wl⟩

theorem room_quiet {change : Int} {wl : Workload τ} (hm : Sorted ltBytes wl.srdPath2hashs)
    (h : srdTotal wl.srdPath2hashs + max change 0 ≤ srdNumberUpperLimit) :
    Room (quiet change wl) := by
  refine ⟨hm, ?_, fun c hc => ?_⟩
  · simpa [quiet, total] using h
  · cases hc

/-- The limit holds all along a run in which what is still to be sealed makes no difference to
the checks. -/
theorem srd_limit_holds {sha256 : Bytes → Hash} {mem : Mem} {change : Int} {wl : Workload τ}
    {acts : List Act} (hm : Sorted ltBytes wl.srdPath2hashs)
    (hstart : srdTotal wl.srdPath2hashs + max change 0 ≤ srdNumberUpperLimit)
    (hok : Runs.Allowed (step sha256 mem) (fun s a => sealingFits s a = true) (quiet change wl) acts) :
    Runs.Always (step sha256 mem) (fun s => (total s : Int) ≤ srdNumberUpperLimit)
      (quiet change wl) acts := by
  have hall := Runs.always_of_allowed (fun _ _ _ hstep hok h => step_room hstep hok h) hok
    (room_quiet hm hstart)
  refine hall.mono fun s h => ?_
  have := h.pending
  omega

/-! ### Two requests at the limit -/

def sealsWell : IncreaseEnv := ⟨true, .success, true, fun _ => some [], true, true⟩

def setChange (i : Nat) (change : Int) : List Act :=
  [.call change, .advance i, .advance i, .advance i]

def afterSealing : List Act :=
  setChange 0 1 ++ [.take, .increase sealsWell (str "/a")] ++ setChange 1 1 ++
    [.take, .increase sealsWell (str "/a")]

theorem srd_limit_afterSealing :
    (Runs.run (step SrdInfo.noHash SrdInfo.noMem) (quiet 0 SrdInfo.emptyWorkload) afterSealing).map
        total = some 2 ∧
      Runs.Always (step SrdInfo.noHash SrdInfo.noMem) (fun s => (total s : Int) ≤ srdNumberUpperLimit)
        (quiet 0 SrdInfo.emptyWorkload) afterSealing :=
  ⟨by decide +kernel, srd_limit_holds (sorted_nil _) (by decide) (by decide +kernel)⟩

def whileSealing : List Act :=
  setChange 0 1 ++ [.take] ++ setChange 1 1 ++
    [.increase sealsWell (str "/a"), .take, .increase sealsWell (str "/a")]

theorem run_whileSealing {sha256 : Bytes → Hash} {mem : Mem} {wl : Workload τ}
    (h : srdTotal wl.srdPath2hashs = 204799) :
    Runs.run (step sha256 mem) (quiet 0 wl) whileSealing =
      some ⟨0, 0, [⟨1, .done⟩, ⟨1, .done⟩],
        srdIncrease sha256 sealsWell (srdIncrease sha256 sealsWell wl (str "/a")) (str "/a")⟩ := by
  have hcut : limitChange 204799 1 = 1 := by decide
  have hturn : turnNum 1 = 1 := by decide
  simp [whileSealing, setChange, Runs.run, step, onTasks, onSrd, SrdTasks.step,
    SrdTasks.advanceCall, SrdInfo.step, tasks, quiet, h, hcut, hturn]

def holding (num : Nat) : Workload Nat :=
  { SrdInfo.emptyWorkload with
    srdPath2hashs := [(str "/a", List.replicate num (List.replicate 32 0))] }

theorem srdTotal_holding (num : Nat) : srdTotal (holding num).srdPath2hashs = num :=
  List.length_replicate

theorem increase_sealsWell (sha256 : Bytes → Hash) {wl : Workload τ}
    (hm : Sorted ltBytes wl.srdPath2hashs) (path : Bytes) :
    srdTotal (srdIncrease sha256 sealsWell wl path).srdPath2hashs =
      srdTotal wl.srdPath2hashs + 1 := by
  have hgoes : sealsWell.Goes := ⟨rfl, rfl, rfl, fun _ _ => rfl, rfl, rfl⟩
  obtain ⟨g, hg⟩ := Option.isSome_iff_exists.mp ((newGHash_isSome sha256 sealsWell).mpr hgoes)
  rw [srdIncrease, hg]
  exact srdTotal_pushHash hm path g.val

theorem sealing_is_not_counted :
    (srdTotal (holding 204799).srdPath2hashs : Int) < srdNumberUpperLimit ∧
      ∃ t, Runs.run (step SrdInfo.noHash SrdInfo.noMem) (quiet 0 (holding 204799)) whileSealing =
          some t ∧
        srdNumberUpperLimit < total t := by
  have hfull := srdTotal_holding 204799
  have hm : Sorted ltBytes (holding 204799).srdPath2hashs := List.pairwise_singleton _ _
  have hone := increase_sealsWell SrdInfo.noHash hm (str "/a")
  have htwo := increase_sealsWell SrdInfo.noHash
    (increase_total SrdInfo.noHash hm sealsWell (str "/a")).1 (str "/a")
  refine ⟨?_, _, run_whileSealing hfull, ?_⟩
  · rw [hfull]
    decide
  · rw [total, htwo, hone, hfull]
    decide

end CrustSworker.SrdLimit

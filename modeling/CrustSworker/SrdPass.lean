import CrustSworker.SrdProof
import CrustSworker.SrdSampling
import Mathlib.Algebra.Order.BigOperators.Group.List

/-!
# A validation pass among other calls

`validate_srd` with the calls that get in between. It notes a failed hash as a path and a
position, and lets go of its mutex before each check; `srd_update_metadata` and `srd_increase`
wait for that mutex, and `srd_decrease` takes none. A step here is one check, one path of
`srd_update_metadata` (which lets go of the mutex as well), or a whole call.

Hashes are only ever taken from the end of a list, so a noted position is right for as long as the
list reaches behind it.
-/

namespace CrustSworker.SrdPass

open OrderedMap Srd SrdInfo SrdCredit SrdProof SrdDecrease
open SrdSampling (validateSrdIdxs hashsOf_created)

variable {τ : Type}

structure Failure where
  path : Bytes
  position : Nat
  hash : Bytes
  deriving DecidableEq, Repr

/-- `noted` is `del_path2idx_m`; `failed` is only looked at here. -/
structure State (τ : Type) where
  wl : Workload τ
  busy : Bool
  todo : List (Nat × Nat)
  noted : DelIndex
  failed : List Failure

inductive Act where
  | validate (rand : Nat → UInt32)
  | check (host : SrdHost)
  | punish (answer : Nat → CrustStatus)
  | increase (env : IncreaseEnv) (host : IncreaseHost) (path : Bytes)
  | update (answer : Nat → CrustStatus) (entry : Bytes × JSON)
  | decrease (answer : Nat → CrustStatus) (change : Int)

def start (wl : Workload τ) : State τ := ⟨wl, false, [], [], []⟩

/-- Between the last check and the end of the pass the mutex is not let go. -/
def State.locked (s : State τ) : Bool := s.busy && s.todo.isEmpty

def drawn (m : PathMap) (srdIdx : Nat × Nat) : Option (Bytes × Bytes) :=
  m[srdIdx.1]?.bind fun entry => entry.2[srdIdx.2]?.map fun g => (entry.1, g)

def noteFailed (noted : DelIndex) (path : Bytes) (position : Nat) : DelIndex :=
  insertKey ltBytes path (insertIndex position (idxsOf noted path)) noted

def updateOn (answer : Nat → CrustStatus) (wl : Workload τ) (entry : Bytes × JSON) : Workload τ :=
  let u := updatePath answer ⟨wl.srdPath2hashs, wl.srdInfoJson, 0⟩ entry
  { wl with srdPath2hashs := u.m, srdInfoJson := u.info }

section
variable (sha256 : Bytes → Hash) (mem : Mem)

def checkNext (host : SrdHost) (s : State τ) (srdIdx : Nat × Nat) (todo : List (Nat × Nat)) :
    State τ :=
  match drawn s.wl.srdPath2hashs srdIdx with
  | none => { s with todo := todo }
  | some (path, g) =>
    if checkSrd sha256 mem host path g = .failed then
      { s with
        todo := todo
        noted := noteFailed s.noted path srdIdx.2
        failed := ⟨path, srdIdx.2, g⟩ :: s.failed }
    else { s with todo := todo }

def step (s : State τ) : Act → Option (State τ)
  | .validate rand =>
    if s.busy then none
    else if s.wl.upgradeStatus = .success then some s
    else (validateSrdIdxs rand s.wl.srdPath2hashs).map fun idxs =>
      { s with busy := true, todo := idxs, noted := [], failed := [] }
  | .check host =>
    match s.busy, s.todo with
    | true, srdIdx :: todo => some (checkNext sha256 mem host s srdIdx todo)
    | _, _ => none
  | .punish answer =>
    if s.locked then (Surface.srdRandomDelete mem answer s.wl s.noted).map start else none
  | .increase env _ path =>
    if s.locked then none else some { s with wl := srdIncrease sha256 env s.wl path }
  | .update answer entry =>
    if s.locked then none else some { s with wl := updateOn answer s.wl entry }
  | .decrease answer change =>
    (srdDecrease mem answer s.wl change []).map fun r => { s with wl := r.2 }

end

/-! ### What is claimed of a run -/

def Designates (s : State τ) : Prop :=
  ∀ f ∈ s.failed, (hashsOf s.wl.srdPath2hashs f.path)[f.position]? = some f.hash

/-- A call of `srd_decrease` takes fewer hashes than there are behind the position: it stops after
the first round in which it has enough. -/
def ReachesBehind (m : PathMap) (change : Int) (path : Bytes) (position : Nat) : Prop :=
  ∀ k, (∀ j < k, (chosenBy m [] j : Int) < min change (srdTotal m)) →
    position + k < (hashsOf m path).length

/-- The step takes no hash that has been noted. -/
def keepsNoted (s : State τ) : Act → Prop
  | .update _ entry => ∀ f ∈ s.failed, f.path = entry.1 →
      f.position + realDeletedNum s.wl.srdPath2hashs entry.1 entry.2 < (hashsOf s.wl.srdPath2hashs entry.1).length
  | .decrease _ change => ∀ f ∈ s.failed, ReachesBehind s.wl.srdPath2hashs change f.path f.position
  | _ => True

/-- What the end of a pass does: everything that failed is removed, at least as many hashes go as
twice the number of the noted ones, and nothing goes when nothing failed. -/
structure Punished (s : State τ) (wl : Workload τ) : Prop where
  designates : Designates s
  removed : ∃ gone : Bytes → List Nat, ∀ path, (gone path).Pairwise (· < ·) ∧
    (∀ i ∈ gone path, i < (hashsOf s.wl.srdPath2hashs path).length) ∧
    (∀ f ∈ s.failed, f.path = path → f.position ∈ gone path) ∧
    hashsOf wl.srdPath2hashs path = removeAt (gone path) (hashsOf s.wl.srdPath2hashs path)
  enough : srdTotal wl.srdPath2hashs + min (Surface.srdPunishFactor * weigh List.length s.noted)
    (srdTotal s.wl.srdPath2hashs) ≤ srdTotal s.wl.srdPath2hashs
  spared : s.failed = [] → wl = s.wl

structure Inv (s : State τ) : Prop where
  sorted : Sorted ltBytes s.wl.srdPath2hashs
  notedSorted : Sorted ltBytes s.noted
  ascending : ∀ path, (idxsOf s.noted path).Pairwise (· < ·)
  noted : ∀ path i, i ∈ idxsOf s.noted path ↔ ∃ f ∈ s.failed, f.path = path ∧ f.position = i
  designates : Designates s

section
variable {sha256 : Bytes → Hash} {mem : Mem}

/-! ### What a step leaves of a list -/

theorem hashsOf_popHashs (answer : Nat → CrustStatus) (path : Bytes) (n : Nat) (u : Update)
    (p : Bytes) : hashsOf (popHashs answer path n u).m p =
      if p = path then (hashsOf u.m path).take ((hashsOf u.m path).length - n)
      else hashsOf u.m p := by
  induction n generalizing u with
  | zero =>
    rw [popHashs, Nat.sub_zero, List.take_length]
    split_ifs with h
    · rw [h]
    · rfl
  | succ n ih =>
    have hself : hashsOf (popHash answer path u).m path = (hashsOf u.m path).dropLast := by
      rw [popHash, hashsOf_insertKey, if_pos rfl]
    rw [popHashs, ih, hself]
    split_ifs with h
    · rw [List.dropLast_eq_take, List.length_take, List.take_take]
      congr 1
      omega
    · rw [popHash, hashsOf_insertKey, if_neg h]

theorem hashsOf_updateOn (answer : Nat → CrustStatus) (wl : Workload τ) (entry : Bytes × JSON)
    (p : Bytes) : hashsOf (updateOn answer wl entry).srdPath2hashs p =
      if p = entry.1 then (hashsOf wl.srdPath2hashs p).take ((hashsOf wl.srdPath2hashs p).length -
        realDeletedNum wl.srdPath2hashs entry.1 entry.2)
      else hashsOf wl.srdPath2hashs p := by
  rw [updateOn, updatePath, hashsOf_popHashs]
  dsimp only
  rw [hashsOf_created, hashsOf_created]
  split_ifs with h
  · rw [h]
  · rfl

theorem removeAt_end {α : Type} {idxs : List Nat} {l : List α} {n : Nat}
    (h : ∀ i < l.length, i ∈ idxs ↔ n ≤ i) : removeAt idxs l = l.take n := by
  have hfront : (l.take n).zipIdx.filter (fun p => decide (p.2 ∉ idxs)) = (l.take n).zipIdx := by
    refine List.filter_eq_self.mpr fun p hp => decide_eq_true ?_
    have hlt : p.2 < (l.take n).length := List.snd_lt_of_mem_zipIdx hp
    rw [List.length_take] at hlt
    rw [h p.2 (by omega)]
    omega
  have hback : ((l.drop n).zipIdx (0 + (l.take n).length)).filter
      (fun p => decide (p.2 ∉ idxs)) = [] := by
    refine List.filter_eq_nil_iff.mpr fun p hp => ?_
    have hge := List.le_snd_of_mem_zipIdx hp
    have hlt := List.snd_lt_add_of_mem_zipIdx hp
    rw [List.length_take] at hge hlt
    rw [List.length_drop] at hlt
    have hin : p.2 ∈ idxs := (h p.2 (by omega)).mpr (by omega)
    simpa using hin
  have hsplit : l.zipIdx = (l.take n).zipIdx ++ (l.drop n).zipIdx (0 + (l.take n).length) := by
    rw [← List.zipIdx_append, List.take_append_drop]
  rw [removeAt, hsplit, List.filter_append, hfront, hback, List.append_nil, List.zipIdx_map_fst]

theorem removeAt_covered {m : PathMap} {del : DelIndex} {k : Nat}
    (hcov : Covers m [] (fun _ => k) del) (path : Bytes) :
    removeAt (idxsOf del path) (hashsOf m path) =
      (hashsOf m path).take ((hashsOf m path).length - k) := by
  refine removeAt_end fun i hi => ?_
  have hnil : i ∉ idxsOf ([] : DelIndex) path := List.not_mem_nil
  rw [hcov.mem_iff, or_iff_right hnil]
  omega

theorem hashsOf_srdDecrease {answer : Nat → CrustStatus} {wl wl' : Workload τ} {change : Int}
    {n : Nat} (hm : Sorted ltBytes wl.srdPath2hashs)
    (h : srdDecrease mem answer wl change [] = some (n, wl')) :
    ∃ k, (∀ j < k, (chosenBy wl.srdPath2hashs [] j : Int) <
        min change (srdTotal wl.srdPath2hashs)) ∧
      min change (srdTotal wl.srdPath2hashs) ≤ chosenBy wl.srdPath2hashs [] k ∧
      ∀ path, hashsOf wl'.srdPath2hashs path = (hashsOf wl.srdPath2hashs path).take
        ((hashsOf wl.srdPath2hashs path).length - k) := by
  have hstart : Chosen wl.srdPath2hashs [] :=
    ⟨sorted_nil _, List.forall_mem_nil _, List.forall_mem_nil _⟩
  by_cases hchange : 0 < change
  · obtain ⟨n', wl'', k, hrun, ⟨del, hcov, hmap⟩, -, hge, hlow⟩ :=
      srdDecrease_spec mem answer hm hstart hchange
    rw [hrun] at h
    cases h
    exact ⟨k, hlow, hge, fun path => (hmap path).trans (removeAt_covered hcov path)⟩
  · refine ⟨0, fun j hj => absurd hj (Nat.not_lt_zero j), by omega, fun path => ?_⟩
    have hsame : wl'.srdPath2hashs = wl.srdPath2hashs := by
      have hstop : ¬ ((0 : Nat) : Int) < min change (srdTotal wl.srdPath2hashs) := by omega
      simp only [srdDecrease] at h
      split_ifs at h
      · cases h
        rfl
      · rw [chooseLoop, if_neg] at h
        · cases h
          rfl
        · exact hstop
    rw [hsame, Nat.sub_zero, List.take_length]

theorem taken_iff {α : Type} {l : List α} {i n : Nat} {a : α} (h : l[i]? = some a) :
    (l.take (l.length - n))[i]? = some a ↔ i + n < l.length := by
  obtain ⟨hi, -⟩ := List.getElem?_eq_some_iff.mp h
  rw [List.getElem?_take]
  split_ifs with hlt
  · exact iff_of_true h (by omega)
  · exact iff_of_false (by simp) (by omega)

theorem reachesBehind_iff {m : PathMap} {change : Int} {k : Nat} {path : Bytes} {i : Nat}
    (hlow : ∀ j < k, (chosenBy m [] j : Int) < min change (srdTotal m))
    (hge : min change (srdTotal m) ≤ chosenBy m [] k) :
    ReachesBehind m change path i ↔ i + k < (hashsOf m path).length := by
  constructor
  · intro h
    exact h k hlow
  · intro h j hj
    have hle : j ≤ k := Nat.le_of_not_lt fun hlt => by
      have := hj k hlt
      omega
    omega

/-! ### A call of `srd_update_metadata` in its steps -/

theorem popHashs_asked (answer : Nat → CrustStatus) (path : Bytes) (n b : Nat) (u : Update) :
    popHashs answer path n { u with asked := b + u.asked } =
      { popHashs (fun k => answer (b + k)) path n u with
        asked := b + (popHashs (fun k => answer (b + k)) path n u).asked } := by
  induction n generalizing u with
  | zero => rfl
  | succ n ih => exact ih (popHash (fun k => answer (b + k)) path u)

theorem updatePath_eq (answer : Nat → CrustStatus) (wl : Workload τ) (asked : Nat)
    (entry : Bytes × JSON) :
    ∃ asked', updatePath answer ⟨wl.srdPath2hashs, wl.srdInfoJson, asked⟩ entry =
      ⟨(updateOn (fun k => answer (asked + k)) wl entry).srdPath2hashs,
        (updateOn (fun k => answer (asked + k)) wl entry).srdInfoJson, asked'⟩ :=
  ⟨_, popHashs_asked answer entry.1 _ asked
    ⟨insertKey ltBytes entry.1 (hashsOf wl.srdPath2hashs entry.1) wl.srdPath2hashs,
      wl.srdInfoJson, 0⟩⟩

theorem update_rounds (answer : Nat → CrustStatus) (entries : List (Bytes × JSON))
    {s : State τ} (hs : s.locked = false) (asked : Nat) {u : Update}
    (hu : entries.foldl (updatePath answer) ⟨s.wl.srdPath2hashs, s.wl.srdInfoJson, asked⟩ = u) :
    ∃ as : List Act, (∀ a ∈ as, ∃ answer entry, a = .update answer entry) ∧
      Runs.run (step sha256 mem) s as =
        some { s with wl := { s.wl with srdPath2hashs := u.m, srdInfoJson := u.info } } := by
  induction entries generalizing s asked with
  | nil =>
    subst hu
    exact ⟨[], List.forall_mem_nil _, rfl⟩
  | cons entry entries ih =>
    obtain ⟨asked', hone⟩ := updatePath_eq answer s.wl asked entry
    rw [List.foldl_cons, hone] at hu
    obtain ⟨as, has, hrun⟩ := ih
      (s := { s with wl := updateOn (fun k => answer (asked + k)) s.wl entry }) hs asked' hu
    refine ⟨.update (fun k => answer (asked + k)) entry :: as,
      List.forall_mem_cons.mpr ⟨⟨_, _, rfl⟩, has⟩, ?_⟩
    have hstep : step sha256 mem s (.update (fun k => answer (asked + k)) entry) =
        some { s with wl := updateOn (fun k => answer (asked + k)) s.wl entry } := by
      simp only [step, hs, Bool.false_eq_true, if_false]
    simp only [Runs.run, hstep]
    exact hrun

theorem updateMetadata_run {answer : Nat → CrustStatus} {s : State τ} {wl : Workload τ}
    {hashs : Bytes} (hs : s.locked = false)
    (h : srdUpdateMetadata mem answer s.wl hashs = some wl) :
    ∃ as : List Act, (∀ a ∈ as, ∃ answer entry, a = .update answer entry) ∧
      Runs.run (step sha256 mem) s as = some { s with wl := wl } := by
  unfold srdUpdateMetadata at h
  split at h
  · cases h
  · obtain rfl := Option.some.inj h
    exact update_rounds answer _ hs 0 rfl

/-! ### The invariant -/

variable {s s' : State τ}

theorem inv_idle {wl : Workload τ} (hm : Sorted ltBytes wl.srdPath2hashs) : Inv (start wl) where
  sorted := hm
  notedSorted := sorted_nil _
  ascending _ := List.Pairwise.nil
  noted path i := by simp [start, idxsOf, findKey]
  designates := List.forall_mem_nil _

theorem Inv.withWl (h : Inv s) {wl : Workload τ} (hm : Sorted ltBytes wl.srdPath2hashs)
    (hd : Designates { s with wl := wl }) : Inv { s with wl := wl } :=
  ⟨hm, h.notedSorted, h.ascending, h.noted, hd⟩

theorem Inv.drawn (h : Inv s) {srdIdx : Nat × Nat} {path g : Bytes}
    (hd : drawn s.wl.srdPath2hashs srdIdx = some (path, g)) : (hashsOf s.wl.srdPath2hashs path)[srdIdx.2]? = some g := by
  obtain ⟨entry, he, hg⟩ := Option.bind_eq_some_iff.mp hd
  obtain ⟨g', hg', hpair⟩ := Option.map_eq_some_iff.mp hg
  cases hpair
  rw [hashsOf_of_mem h.sorted (List.mem_of_getElem? he)]
  exact hg'

theorem Inv.note (h : Inv s) {path g : Bytes} {i : Nat} (hg : (hashsOf s.wl.srdPath2hashs path)[i]? = some g)
    (todo : List (Nat × Nat)) :
    Inv { s with
      todo := todo
      noted := noteFailed s.noted path i
      failed := ⟨path, i, g⟩ :: s.failed } where
  sorted := h.sorted
  notedSorted := h.notedSorted.insertKey isOrder_ltBytes _ _
  ascending p := by
    rw [noteFailed, idxsOf_insertKey]
    split_ifs
    · exact ascending_insertIndex (h.ascending path)
    · exact h.ascending p
  noted p j := by
    rw [noteFailed, idxsOf_insertKey]
    dsimp only
    rw [List.exists_mem_cons_iff]
    split_ifs with hp
    · subst hp
      rw [mem_insertIndex, h.noted]
      simp [eq_comm]
    · rw [h.noted, or_iff_right]
      rintro ⟨rfl, -⟩
      exact hp rfl
  designates := List.forall_mem_cons.mpr ⟨hg, h.designates⟩

theorem Inv.checkNext (h : Inv s) (host : SrdHost) (srdIdx : Nat × Nat)
    (todo : List (Nat × Nat)) : Inv (checkNext sha256 mem host s srdIdx todo) := by
  have hskip : Inv { s with todo := todo } :=
    ⟨h.sorted, h.notedSorted, h.ascending, h.noted, h.designates⟩
  unfold SrdPass.checkNext
  cases hd : SrdPass.drawn s.wl.srdPath2hashs srdIdx with
  | none => exact hskip
  | some found =>
    dsimp only
    split_ifs
    · exact h.note (h.drawn hd) todo
    · exact hskip

theorem decrease_sorted {answer : Nat → CrustStatus} {wl wl' : Workload τ} {change : Int}
    {del : DelIndex} {n : Nat} (hm : Sorted ltBytes wl.srdPath2hashs)
    (h : srdDecrease mem answer wl change del = some (n, wl')) :
    Sorted ltBytes wl'.srdPath2hashs := by
  have hstep : SrdInfo.step (fun _ => zeroHash) mem wl (.decrease answer change del) = some wl' := by
    simp only [SrdInfo.step, h, Option.map_some]
  exact (SrdLimit.decrease_shrunk hm hstep).sorted

theorem randomDelete_sorted {answer : Nat → CrustStatus} {wl wl' : Workload τ}
    {failed : DelIndex} (hm : Sorted ltBytes wl.srdPath2hashs)
    (h : Surface.srdRandomDelete mem answer wl failed = some wl') :
    Sorted ltBytes wl'.srdPath2hashs := by
  unfold Surface.srdRandomDelete at h
  dsimp only at h
  split_ifs at h
  · cases h
    exact hm
  · obtain ⟨⟨n, wl''⟩, hd, rfl⟩ := Option.map_eq_some_iff.mp h
    exact decrease_sorted hm hd

theorem increase_keeps (h : Inv s) (env : IncreaseEnv) (path : Bytes) :
    Inv { s with wl := srdIncrease sha256 env s.wl path } := by
  refine h.withWl (SrdLimit.increase_total sha256 h.sorted env path).1 fun f hf => ?_
  have hold := h.designates f hf
  change (hashsOf (srdIncrease sha256 env s.wl path).srdPath2hashs f.path)[f.position]? = _
  unfold srdIncrease
  cases newGHash sha256 env with
  | none => exact hold
  | some g =>
    dsimp only
    rw [hashsOf_pushHash]
    split_ifs with hp
    · subst hp
      obtain ⟨hi, -⟩ := List.getElem?_eq_some_iff.mp hold
      rw [List.getElem?_append_left hi]
      exact hold
    · exact hold

theorem update_keeps_iff (h : Inv s) (answer : Nat → CrustStatus) (entry : Bytes × JSON) :
    Designates { s with wl := updateOn answer s.wl entry } ↔
      keepsNoted s (.update answer entry) := by
  refine forall₂_congr fun f hf => ?_
  have hold := h.designates f hf
  change (hashsOf (updateOn answer s.wl entry).srdPath2hashs f.path)[f.position]? = _ ↔ _
  rw [hashsOf_updateOn]
  split_ifs with hp
  · rw [taken_iff hold, hp]
    exact ⟨fun hlt _ => hlt, fun hlt => hlt rfl⟩
  · exact iff_of_true hold fun h => absurd h hp

theorem decrease_keeps_iff (h : Inv s) {answer : Nat → CrustStatus} {change : Int} {n : Nat}
    {wl : Workload τ} (hd : srdDecrease mem answer s.wl change [] = some (n, wl)) :
    Designates { s with wl := wl } ↔ keepsNoted s (.decrease answer change) := by
  obtain ⟨k, hlow, hge, hmap⟩ := hashsOf_srdDecrease h.sorted hd
  refine forall₂_congr fun f hf => ?_
  change (hashsOf wl.srdPath2hashs f.path)[f.position]? = _ ↔ ReachesBehind s.wl.srdPath2hashs _ _ _
  rw [hmap, taken_iff (h.designates f hf), reachesBehind_iff hlow hge]

theorem step_designates {a : Act} (hstep : step sha256 mem s a = some s') (h : Inv s) :
    (keepsNoted s a → Inv s') ∧ (Designates s' → keepsNoted s a) := by
  cases a with
  | validate rand =>
    refine ⟨fun _ => ?_, fun _ => trivial⟩
    simp only [step] at hstep
    split_ifs at hstep
    · cases hstep
      exact h
    · obtain ⟨idxs, -, rfl⟩ := Option.map_eq_some_iff.mp hstep
      have hidle := inv_idle (τ := τ) h.sorted
      exact ⟨hidle.sorted, hidle.notedSorted, hidle.ascending, hidle.noted, hidle.designates⟩
  | check host =>
    refine ⟨fun _ => ?_, fun _ => trivial⟩
    simp only [step] at hstep
    split at hstep
    · cases hstep
      exact h.checkNext host _ _
    · cases hstep
  | punish answer =>
    refine ⟨fun _ => ?_, fun _ => trivial⟩
    simp only [step] at hstep
    split_ifs at hstep
    obtain ⟨wl, hwl, rfl⟩ := Option.map_eq_some_iff.mp hstep
    exact inv_idle (randomDelete_sorted h.sorted hwl)
  | increase env host path =>
    refine ⟨fun _ => ?_, fun _ => trivial⟩
    simp only [step] at hstep
    split_ifs at hstep
    cases hstep
    exact increase_keeps h env path
  | update answer entry =>
    simp only [step] at hstep
    split_ifs at hstep
    cases hstep
    have hkeep := update_keeps_iff h answer entry
    refine ⟨fun hk => h.withWl ?_ (hkeep.mpr hk), hkeep.mp⟩
    exact (SrdSampling.updatePath_popped (u := ⟨_, _, 0⟩) h.sorted entry).sorted
  | decrease answer change =>
    simp only [step] at hstep
    obtain ⟨⟨n, wl⟩, hd, rfl⟩ := Option.map_eq_some_iff.mp hstep
    have hkeep := decrease_keeps_iff h hd
    exact ⟨fun hk => h.withWl (decrease_sorted h.sorted hd) (hkeep.mpr hk),
      hkeep.mp⟩

/-- In every state of a run the noted positions designate the hashes that failed, exactly when no
call takes a hash that has been noted. -/
theorem noted_designate_iff {wl : Workload τ} {t : State τ} {as : List Act}
    (hm : Sorted ltBytes wl.srdPath2hashs)
    (hrun : Runs.run (step sha256 mem) (start wl) as = some t) :
    Runs.Always (step sha256 mem) Designates (start wl) as ↔
      Runs.Allowed (step sha256 mem) keepsNoted (start wl) as :=
  Runs.always_iff_allowed (fun _ h => Inv.designates h)
    (fun _ _ _ hstep h => step_designates hstep h) hrun (inv_idle hm)

/-! ### The end of a pass -/

theorem Inv.chosen (h : Inv s) : Chosen s.wl.srdPath2hashs s.noted where
  sorted := h.notedSorted
  ascending entry he := by
    have hasc := h.ascending entry.1
    rwa [idxsOf, findKey_of_mem isOrder_ltBytes h.notedSorted he] at hasc
  inRange entry he i hi := by
    have hin : i ∈ idxsOf s.noted entry.1 := by
      rwa [idxsOf, findKey_of_mem isOrder_ltBytes h.notedSorted he]
    obtain ⟨f, hf, hpath, rfl⟩ := (h.noted entry.1 i).mp hin
    rw [← hpath]
    exact (List.getElem?_eq_some_iff.mp (h.designates f hf)).1

theorem Inv.weigh_eq_zero (h : Inv s) (hz : weigh List.length s.noted = 0) : s.failed = [] := by
  refine List.eq_nil_iff_forall_not_mem.mpr fun f hf => ?_
  have hin := (h.noted f.path f.position).mpr ⟨f, hf, rfl, rfl⟩
  have hle : weightAt List.length s.noted f.path ≤ weigh List.length s.noted := by
    unfold idxsOf at hin
    unfold weightAt
    cases hfind : findKey f.path s.noted with
    | none =>
      rw [hfind] at hin
      cases hin
    | some idxs =>
      exact List.single_le_sum (fun _ _ => Nat.zero_le _) _
        (List.mem_map.mpr ⟨_, mem_of_findKey hfind, rfl⟩)
  rw [weightAt_length, hz] at hle
  exact List.ne_nil_of_mem hin (List.length_eq_zero_iff.mp (Nat.le_zero.mp hle))

theorem Inv.punished (h : Inv s) (answer : Nat → CrustStatus) :
    ∃ wl, Surface.srdRandomDelete mem answer s.wl s.noted = some wl ∧ Punished s wl := by
  by_cases hz : weigh List.length s.noted = 0
  · -- Nothing failed: the number to delete is zero whether the map of positions is empty or not.
    have hnone := h.weigh_eq_zero hz
    have hsame : Punished s s.wl := by
      refine ⟨h.designates, ⟨fun _ => [], fun path => ⟨List.Pairwise.nil, List.forall_mem_nil _, ?_, ?_⟩⟩, ?_,
        fun _ => rfl⟩
      · rw [hnone]
        exact List.forall_mem_nil _
      · simp [removeAt]
      · rw [hz]
        omega
    refine ⟨s.wl, ?_, hsame⟩
    have hsum : (s.noted.map fun p => p.2.length).sum = 0 := hz
    have hdec : srdDecrease mem answer s.wl ((0 : Nat) : Int) s.noted = some (0, s.wl) := by
      unfold srdDecrease
      dsimp only
      rw [if_pos (by omega)]
    unfold Surface.srdRandomDelete
    dsimp only
    rw [hsum, Nat.mul_zero, hdec]
    split_ifs
    · rfl
    · rfl
  · have hpos : 0 < Surface.srdPunishFactor * weigh List.length s.noted :=
      Nat.mul_pos (by decide) (Nat.pos_of_ne_zero hz)
    have hchange : (0 : Int) < (Surface.srdPunishFactor * weigh List.length s.noted : Nat) := by
      omega
    obtain ⟨n, wl, k, hrun, ⟨del, hcov, hmap⟩, htotal, hge, -⟩ :=
      srdDecrease_spec mem answer h.sorted h.chosen hchange
    refine ⟨wl, ?_, h.designates, ⟨idxsOf del, fun path => ⟨hcov.ascending path,
      fun i hi => hcov.inRange h.chosen hi, fun f hf hp => ?_, hmap path⟩⟩, by omega, ?_⟩
    · unfold Surface.srdRandomDelete
      dsimp only
      rw [if_neg]
      · exact congrArg (Option.map Prod.snd) hrun
      · rintro ⟨hle, -⟩
        exact absurd hpos (Nat.not_lt.mpr hle)
    · rw [hcov.mem_iff]
      exact .inl ((h.noted path f.position).mpr ⟨f, hf, hp, rfl⟩)
    · intro hnone
      refine absurd ?_ hz
      have hnil : ∀ entry ∈ s.noted, entry.2 = [] := by
        intro entry he
        refine List.eq_nil_iff_forall_not_mem.mpr fun i hi => ?_
        have hin : i ∈ idxsOf s.noted entry.1 := by
          rwa [idxsOf, findKey_of_mem isOrder_ltBytes h.notedSorted he]
        obtain ⟨f, hf, -⟩ := (h.noted entry.1 i).mp hin
        rw [hnone] at hf
        cases hf
      refine List.sum_eq_zero fun x hx => ?_
      obtain ⟨entry, he, rfl⟩ := List.mem_map.mp hx
      rw [hnil entry he]
      rfl

/-- A pass in which no call takes a noted hash ends, and what failed is gone. -/
theorem failed_are_removed {wl : Workload τ} {t : State τ} {as : List Act}
    (hm : Sorted ltBytes wl.srdPath2hashs)
    (hrun : Runs.run (step sha256 mem) (start wl) as = some t)
    (hok : Runs.Allowed (step sha256 mem) keepsNoted (start wl) as) (hlocked : t.locked = true)
    (answer : Nat → CrustStatus) :
    ∃ t', step sha256 mem t (.punish answer) = some t' ∧ Punished t t'.wl := by
  have hinv : Inv t := Runs.run_invariant_of
    (fun _ _ _ hstep hk h => (step_designates hstep h).1 hk) hrun hok (inv_idle hm)
  obtain ⟨wl', hwl, hpunished⟩ : ∃ wl', Surface.srdRandomDelete mem answer t.wl t.noted =
      some wl' ∧ Punished t wl' := hinv.punished answer
  refine ⟨start wl', ?_, hpunished⟩
  simp only [step, if_pos hlocked, hwl, Option.map_some]

end

/-! ### Three hashes under one path -/

def threeHashs : Workload Nat :=
  { SrdInfo.emptyWorkload with
    srdPath2hashs :=
      [(str "/a", [List.replicate 32 1, List.replicate 32 2, List.replicate 32 3])] }

theorem threeHashs_sorted : Sorted ltBytes threeHashs.srdPath2hashs := List.pairwise_singleton _ _

def emptyHost : SrdHost := ⟨fun _ => none, true, true, 0⟩

def checkAll : List Act := [.validate fun _ => 0, .check emptyHost, .check emptyHost, .check emptyHost]

def checkAndPop : List Act :=
  [.validate fun _ => 0, .check emptyHost, .check emptyHost,
    .update (fun _ => .success) (str "/a", .integral 2), .check emptyHost]

def threeFailed : State Nat :=
  { wl := threeHashs
    busy := true
    todo := []
    noted := [(str "/a", [0, 1, 2])]
    failed := [⟨str "/a", 2, List.replicate 32 3⟩, ⟨str "/a", 1, List.replicate 32 2⟩,
      ⟨str "/a", 0, List.replicate 32 1⟩] }

theorem run_checkAll :
    Runs.run (step noHash noMem) (start threeHashs) checkAll = some threeFailed := rfl

theorem allowed_checkAll :
    Runs.Allowed (step noHash noMem) keepsNoted (start threeHashs) checkAll :=
  ⟨trivial, trivial, trivial, trivial, trivial⟩

theorem noted_designate_checkAll :
    Runs.Always (step noHash noMem) Designates (start threeHashs) checkAll :=
  (noted_designate_iff threeHashs_sorted run_checkAll).mpr allowed_checkAll

theorem failed_are_removed_checkAll :
    ∃ t', step noHash noMem threeFailed (.punish fun _ => .success) = some t' ∧
      Punished threeFailed t'.wl :=
  failed_are_removed threeHashs_sorted run_checkAll allowed_checkAll rfl _

/-- A noted position is behind the end of what the other call left, and the pass ends in an access
out of bounds. -/
theorem popped_under_the_pass :
    ∃ t, Runs.run (step noHash noMem) (start threeHashs) checkAndPop = some t ∧
      t.locked = true ∧ ¬ Designates t ∧
      ∀ answer, step noHash noMem t (.punish answer) = none := by
  refine ⟨_, rfl, rfl, fun h => ?_, fun answer => ?_⟩
  · exact absurd (h ⟨str "/a", 1, List.replicate 32 2⟩ (by decide)) (by decide)
  · rfl

end CrustSworker.SrdPass

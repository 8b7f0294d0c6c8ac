import Mathlib.Algebra.BigOperators.Group.List.Basic
import Mathlib.Algebra.GroupWithZero.Nat
import Mathlib.Algebra.Ring.Int.Defs

/-!
# Taking from a container in turn

A loop goes round and round over a container. From every element that still has something it
takes one, and it stops when it has taken a given number. The position is the cut between the
elements that were visited in this round and those that were not.
-/

namespace CrustSworker.RoundRobin

variable {α : Type}

def next (done : List α) (a : α) (todo : List α) : List α × List α :=
  if todo.isEmpty then ([], done ++ [a]) else (done ++ [a], todo)

section
variable (take : α → Option α)

/-- The loop on that much fuel: the elements it took from, in order, and what is left. -/
def cycle : Nat → Nat → List α → List α → Option (List α × List α)
  | _, 0, done, todo => some ([], done ++ todo)
  | 0, _ + 1, _, _ => none
  | _ + 1, _ + 1, _, [] => none
  | fuel + 1, acc + 1, done, a :: todo =>
    match take a with
    | some b =>
      (cycle fuel acc (next done b todo).1 (next done b todo).2).map fun r => (a :: r.1, r.2)
    | none => cycle fuel (acc + 1) (next done a todo).1 (next done a todo).2

def after : Nat → α → α
  | 0, a => a
  | k + 1, a => (take (after k a)).getD (after k a)

def cutAt (l : List α) (k i : Nat) : List α × List α :=
  ((l.take i).map (after take (k + 1)), (l.drop i).map (after take k))

end

variable {take : α → Option α}

theorem next_append (done : List α) (a : α) (todo : List α) :
    (next done a todo).1 ++ (next done a todo).2 = done ++ a :: todo := by
  unfold next
  split_ifs with h
  · rw [List.isEmpty_iff.mp h, List.nil_append]
  · rw [List.append_assoc, List.singleton_append]

theorem next_ne_nil (done : List α) (a : α) (todo : List α) : (next done a todo).2 ≠ [] := by
  unfold next
  split_ifs with h
  · simp
  · exact fun hnil => h (List.isEmpty_iff.mpr hnil)

theorem cycle_cons_some {a b : α} (h : take a = some b) (fuel acc : Nat) (done todo : List α) :
    cycle take (fuel + 1) (acc + 1) done (a :: todo) =
      (cycle take fuel acc (next done b todo).1 (next done b todo).2).map
        fun r => (a :: r.1, r.2) := by
  rw [cycle, h]

theorem cycle_cons_none {a : α} (h : take a = none) (fuel acc : Nat) (done todo : List α) :
    cycle take (fuel + 1) (acc + 1) done (a :: todo) =
      cycle take fuel (acc + 1) (next done a todo).1 (next done a todo).2 := by
  rw [cycle, h]

theorem cycle_mono {fuel acc : Nat} {done todo : List α} {r : List α × List α}
    (h : cycle take fuel acc done todo = some r) {fuel' : Nat} (hle : fuel ≤ fuel') :
    cycle take fuel' acc done todo = some r := by
  induction fuel generalizing acc done todo r fuel' with
  | zero =>
    cases acc with
    | zero =>
      rw [cycle] at h ⊢
      exact h
    | succ acc => cases h
  | succ fuel ih =>
    obtain ⟨fuel', rfl⟩ : ∃ n, fuel' = n + 1 := ⟨fuel' - 1, by omega⟩
    have hle' : fuel ≤ fuel' := Nat.le_of_succ_le_succ hle
    cases acc with
    | zero =>
      rw [cycle] at h ⊢
      exact h
    | succ acc =>
      cases todo with
      | nil => cases h
      | cons a todo =>
        cases htake : take a with
        | some b =>
          rw [cycle_cons_some htake] at h ⊢
          obtain ⟨q, hq, hqr⟩ := Option.map_eq_some_iff.mp h
          exact Option.map_eq_some_iff.mpr ⟨q, ih hq hle', hqr⟩
        | none =>
          rw [cycle_cons_none htake] at h ⊢
          exact ih h hle'

theorem cycle_induct {P : Nat → List α → List α → List α × List α → Prop}
    (hstop : ∀ done todo, P 0 done todo ([], done ++ todo))
    (htaken : ∀ acc done a b todo q, take a = some b →
      P acc (next done b todo).1 (next done b todo).2 q → P (acc + 1) done (a :: todo) (a :: q.1, q.2))
    (hpassed : ∀ acc done a todo r, take a = none →
      P (acc + 1) (next done a todo).1 (next done a todo).2 r → P (acc + 1) done (a :: todo) r)
    {fuel acc : Nat} {done todo : List α} {r : List α × List α}
    (h : cycle take fuel acc done todo = some r) : P acc done todo r := by
  induction fuel generalizing acc done todo r with
  | zero =>
    cases acc with
    | zero =>
      rw [cycle, Option.some_inj] at h
      rw [← h]
      exact hstop done todo
    | succ acc => cases h
  | succ fuel ih =>
    cases acc with
    | zero =>
      rw [cycle, Option.some_inj] at h
      rw [← h]
      exact hstop done todo
    | succ acc =>
      cases todo with
      | nil => cases h
      | cons a todo =>
        cases htake : take a with
        | some b =>
          rw [cycle_cons_some htake] at h
          obtain ⟨q, hq, rfl⟩ := Option.map_eq_some_iff.mp h
          exact htaken acc done a b todo q htake (ih hq)
        | none =>
          rw [cycle_cons_none htake] at h
          exact hpassed acc done a todo r htake (ih h)

theorem cycle_length {fuel acc : Nat} {done todo : List α} {r : List α × List α}
    (h : cycle take fuel acc done todo = some r) : r.1.length = acc := by
  refine cycle_induct (P := fun acc _ _ r => r.1.length = acc) ?_ ?_ ?_ h
  · exact fun _ _ => rfl
  · intro acc done a b todo q _ ih
    rw [List.length_cons, ih]
  · exact fun _ _ _ _ _ _ ih => ih

theorem cycle_conserves {f g : α → Int} (hfg : ∀ a b, take a = some b → f b + g a = f a)
    {fuel acc : Nat} {done todo : List α} {r : List α × List α}
    (h : cycle take fuel acc done todo = some r) :
    (r.2.map f).sum + (r.1.map g).sum = ((done ++ todo).map f).sum := by
  refine cycle_induct (P := fun _ done todo r =>
    (r.2.map f).sum + (r.1.map g).sum = ((done ++ todo).map f).sum) ?_ ?_ ?_ h
  · intro done todo
    simp
  · intro acc done a b todo q htake ih
    have hb := hfg a b htake
    rw [next_append] at ih
    simp only [List.map_append, List.map_cons, List.sum_append, List.sum_cons] at ih ⊢
    omega
  · intro acc done a todo r _ ih
    rwa [next_append] at ih

theorem cycle_forall {Q : α → Prop} (hQ : ∀ a b, take a = some b → Q a → Q b)
    {fuel acc : Nat} {done todo : List α} {r : List α × List α}
    (h : cycle take fuel acc done todo = some r) (hall : ∀ a ∈ done ++ todo, Q a) :
    (∀ a ∈ r.1, Q a) ∧ ∀ a ∈ r.2, Q a := by
  refine cycle_induct (P := fun _ done todo r => (∀ a ∈ done ++ todo, Q a) →
    (∀ a ∈ r.1, Q a) ∧ ∀ a ∈ r.2, Q a) ?_ ?_ ?_ h hall
  · exact fun _ _ hall => ⟨nofun, hall⟩
  · intro acc done a b todo q htake ih hall
    have ha := hall a (List.mem_append_right _ List.mem_cons_self)
    have hnext : ∀ c ∈ (next done b todo).1 ++ (next done b todo).2, Q c := by
      intro c hc
      rw [next_append] at hc
      rcases List.mem_append.mp hc with hc | hc
      · exact hall c (List.mem_append_left _ hc)
      · rcases List.mem_cons.mp hc with rfl | hc
        · exact hQ a c htake ha
        · exact hall c (List.mem_append_right _ (List.mem_cons_of_mem _ hc))
    exact ⟨List.forall_mem_cons.mpr ⟨ha, (ih hnext).1⟩, (ih hnext).2⟩
  · intro acc done a todo r _ ih hall
    exact ih fun c hc => hall c (by rwa [next_append] at hc)

theorem cycle_map {β : Type} {f : α → β} (hf : ∀ a b, take a = some b → f b = f a)
    {fuel acc : Nat} {done todo : List α} {r : List α × List α}
    (h : cycle take fuel acc done todo = some r) : r.2.map f = (done ++ todo).map f := by
  refine cycle_induct (P := fun _ done todo r => r.2.map f = (done ++ todo).map f) ?_ ?_ ?_ h
  · exact fun _ _ => rfl
  · intro acc done a b todo q htake ih
    rw [ih, next_append, List.map_append, List.map_append, List.map_cons, List.map_cons,
      hf a b htake]
  · intro acc done a todo r _ ih
    rwa [next_append] at ih

theorem next_cutAt {l done todo : List α} {a : α} {k i : Nat}
    (h : (done, a :: todo) = cutAt take l k i) :
    ∃ k' i', next done ((take a).getD a) todo = cutAt take l k' i' := by
  obtain ⟨rfl, htodo⟩ := Prod.mk.inj h
  have hi : i < l.length := by
    by_contra hge
    rw [List.drop_eq_nil_of_le (by omega)] at htodo
    cases htodo
  rw [List.drop_eq_getElem_cons hi, List.map_cons] at htodo
  obtain ⟨rfl, rfl⟩ := List.cons.inj htodo
  have htake : (l.take i).map (after take (k + 1)) ++
      [(take (after take k l[i])).getD (after take k l[i])] =
        (l.take (i + 1)).map (after take (k + 1)) := by
    rw [List.take_succ_eq_append_getElem hi, List.map_append]
    rfl
  simp only [next, cutAt, htake]
  by_cases hlast : i + 1 < l.length
  · refine ⟨k, i + 1, if_neg ?_⟩
    rw [List.isEmpty_iff, List.map_eq_nil_iff, List.drop_eq_nil_iff]
    omega
  · refine ⟨k + 1, 0, ?_⟩
    rw [List.drop_eq_nil_of_le (by omega), List.take_of_length_le (by omega)]
    rfl

theorem cycle_cutAt {l : List α} {fuel acc : Nat} {r : List α × List α}
    (h : cycle take fuel acc [] l = some r) :
    ∃ k i, r.2 = (cutAt take l k i).1 ++ (cutAt take l k i).2 := by
  refine cycle_induct (P := fun _ done todo r => (∃ k i, (done, todo) = cutAt take l k i) →
    ∃ k i, r.2 = (cutAt take l k i).1 ++ (cutAt take l k i).2) ?_ ?_ ?_ h ⟨0, 0, ?_⟩
  · rintro done todo ⟨k, i, hcut⟩
    exact ⟨k, i, by rw [← hcut]⟩
  · rintro acc done a b todo q htake ih ⟨k, i, hcut⟩
    obtain ⟨k', i', hnext⟩ := next_cutAt hcut
    rw [htake, Option.getD_some] at hnext
    exact ih ⟨k', i', hnext⟩
  · rintro acc done a todo r htake ih ⟨k, i, hcut⟩
    obtain ⟨k', i', hnext⟩ := next_cutAt hcut
    rw [htake, Option.getD_none] at hnext
    exact ih ⟨k', i', hnext⟩
  · exact Prod.ext rfl (List.map_id l).symm

theorem exists_after_of_mem {l : List α} {k i : Nat} {e : α}
    (h : e ∈ (cutAt take l k i).1 ++ (cutAt take l k i).2) :
    ∃ a ∈ l, e = after take k a ∨ e = after take (k + 1) a := by
  rcases List.mem_append.mp h with h | h
  · obtain ⟨a, ha, rfl⟩ := List.mem_map.mp h
    exact ⟨a, List.mem_of_mem_take ha, .inr rfl⟩
  · obtain ⟨a, ha, rfl⟩ := List.mem_map.mp h
    exact ⟨a, List.mem_of_mem_drop ha, .inl rfl⟩

/-! ### Termination -/

section
variable {cap : α → Nat}

/-- Fuel for the rest of the loop: the rest of this round, one more round when nothing is left in
it, and a round for each taking but one. -/
def fuelFor (cap : α → Nat) (c : List α × List α) : Nat → Nat
  | 0 => 0
  | acc + 1 =>
    (c.1 ++ c.2).length * acc + c.2.length +
      if 0 < (c.2.map cap).sum then 0 else (c.1 ++ c.2).length

theorem length_next (done : List α) (a b : α) (todo : List α) :
    ((next done b todo).1 ++ (next done b todo).2).length = (done ++ a :: todo).length := by
  rw [next_append]
  simp

theorem fuelFor_taken {done todo : List α} {a b : α} {acc : Nat} (ha : 0 < cap a)
    (hacc : acc ≤ ((done ++ b :: todo).map cap).sum) :
    fuelFor cap (next done b todo) acc < fuelFor cap (done, a :: todo) (acc + 1) := by
  have hrest : 0 < ((a :: todo).map cap).sum := by
    rw [List.map_cons, List.sum_cons]
    omega
  rw [fuelFor, if_pos hrest]
  cases acc with
  | zero =>
    rw [fuelFor, List.length_cons]
    omega
  | succ acc =>
    rw [fuelFor, length_next done a, Nat.mul_succ]
    cases todo with
    | nil =>
      have hround : (next done b []) = ([], done ++ [b]) := rfl
      have hpos : 0 < ((done ++ [b]).map cap).sum := Nat.lt_of_lt_of_le (Nat.succ_pos _) hacc
      rw [hround, if_pos hpos]
      simp only [List.length_append, List.length_cons, List.length_nil]
      omega
    | cons d todo =>
      have hround : (next done b (d :: todo)) = (done ++ [b], d :: todo) := rfl
      rw [hround]
      simp only [List.length_cons]
      split_ifs <;> omega

theorem fuelFor_passed {done todo : List α} {a : α} {acc : Nat} (ha : cap a = 0)
    (hacc : acc + 1 ≤ ((done ++ a :: todo).map cap).sum) :
    fuelFor cap (next done a todo) (acc + 1) < fuelFor cap (done, a :: todo) (acc + 1) := by
  rw [fuelFor, fuelFor, length_next done a]
  cases todo with
  | nil =>
    have hround : (next done a []) = ([], done ++ [a]) := rfl
    have hrest : ¬ 0 < ([a].map cap).sum := by simp [ha]
    have hpos : 0 < ((done ++ [a]).map cap).sum := Nat.lt_of_lt_of_le (Nat.succ_pos _) hacc
    rw [hround, if_pos hpos, if_neg hrest]
    simp only [List.length_append, List.length_cons, List.length_nil]
    omega
  | cons d todo =>
    have hround : (next done a (d :: todo)) = (done ++ [a], d :: todo) := rfl
    rw [hround]
    simp only [List.length_cons, List.map_cons, List.sum_cons, ha, Nat.zero_add]
    omega

theorem cycle_terminates (hsome : ∀ a b, take a = some b → cap b + 1 = cap a)
    (hnone : ∀ a, take a = none → cap a = 0) {fuel acc : Nat} {done todo : List α}
    (hne : acc = 0 ∨ todo ≠ []) (hacc : acc ≤ ((done ++ todo).map cap).sum)
    (hfuel : fuelFor cap (done, todo) acc ≤ fuel) :
    ∃ r, cycle take fuel acc done todo = some r := by
  induction fuel generalizing acc done todo with
  | zero =>
    cases acc with
    | zero => exact ⟨_, by rw [cycle]⟩
    | succ acc =>
      have hnil : todo = [] := by
        rw [fuelFor] at hfuel
        dsimp only at hfuel
        exact List.eq_nil_of_length_eq_zero (by omega)
      exact absurd hnil (hne.resolve_left (Nat.succ_ne_zero _))
  | succ fuel ih =>
    cases acc with
    | zero => exact ⟨_, by rw [cycle]⟩
    | succ acc =>
      cases todo with
      | nil => exact absurd rfl (hne.resolve_left (Nat.succ_ne_zero _))
      | cons a todo =>
        cases htake : take a with
        | some b =>
          have hb := hsome a b htake
          have hacc' : acc ≤ ((done ++ b :: todo).map cap).sum := by
            simp only [List.map_append, List.map_cons, List.sum_append, List.sum_cons] at hacc ⊢
            omega
          have hless := fuelFor_taken (a := a) (by omega) hacc'
          obtain ⟨q, hq⟩ : ∃ q, cycle take fuel acc (next done b todo).1 (next done b todo).2 =
              some q :=
            ih (.inr (next_ne_nil done b todo)) (by rwa [next_append])
              (Nat.le_of_lt_succ (Nat.lt_of_lt_of_le hless hfuel))
          exact ⟨_, by rw [cycle_cons_some htake, hq, Option.map_some]⟩
        | none =>
          have hless := fuelFor_passed (hnone a htake) hacc
          obtain ⟨q, hq⟩ : ∃ q, cycle take fuel (acc + 1) (next done a todo).1
              (next done a todo).2 = some q :=
            ih (.inr (next_ne_nil done a todo)) (by rwa [next_append])
              (Nat.le_of_lt_succ (Nat.lt_of_lt_of_le hless hfuel))
          exact ⟨q, by rw [cycle_cons_none htake, hq]⟩

theorem cycle_total (hsome : ∀ a b, take a = some b → cap b + 1 = cap a)
    (hnone : ∀ a, take a = none → cap a = 0) {acc : Nat} {l : List α}
    (hacc : acc ≤ (l.map cap).sum) :
    ∃ r, ∀ fuel, l.length * acc ≤ fuel → cycle take fuel acc [] l = some r := by
  have hne : acc = 0 ∨ l ≠ [] := by
    by_cases hnil : l = []
    · rw [hnil] at hacc
      exact .inl (Nat.le_zero.mp hacc)
    · exact .inr hnil
  have hbound : fuelFor cap ([], l) acc ≤ l.length * acc := by
    cases acc with
    | zero => exact Nat.zero_le _
    | succ acc =>
      have hpos : 0 < (l.map cap).sum := Nat.lt_of_lt_of_le (Nat.succ_pos _) hacc
      rw [fuelFor, if_pos hpos, List.nil_append, Nat.mul_succ]
      exact Nat.le_refl _
  obtain ⟨r, hr⟩ := cycle_terminates hsome hnone hne (by rwa [List.nil_append]) hbound
  exact ⟨r, fun fuel hfuel => cycle_mono hr hfuel⟩

end

end CrustSworker.RoundRobin

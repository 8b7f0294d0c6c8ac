import Mathlib.Data.List.Basic
import Mathlib.Logic.Function.Basic

/-!
# Lists in numbered pieces

A list is cut into pieces of a fixed length, and the pieces are put under numbered keys of a
map. Joined in order the pieces are the list again, and a key that has no number is left alone.
-/

namespace CrustSworker.Pieces

variable {α κ ν : Type}

/-! ### Cutting -/

def cut (n : Nat) (l : List α) : List (List α) :=
  if _h : n = 0 ∨ l = [] then []
  else l.take n :: cut n (l.drop n)
termination_by l.length
decreasing_by
  rw [not_or] at _h
  have hpos := List.length_pos_iff.mpr _h.2
  rw [List.length_drop]
  omega

section
variable {n : Nat}

theorem cut_nil : cut n ([] : List α) = [] := by
  rw [cut, dif_pos (.inr rfl)]

theorem cut_of_ne_nil (hn : 0 < n) {l : List α} (hl : l ≠ []) :
    cut n l = l.take n :: cut n (l.drop n) := by
  rw [cut, dif_neg]
  rintro (h | h)
  · omega
  · exact hl h

theorem cut_drop (hn : 0 < n) {l : List α} {offset : Nat} (hmore : offset < l.length) :
    cut n (l.drop offset) = (l.drop offset).take (min (l.length - offset) n) ::
      cut n (l.drop (offset + min (l.length - offset) n)) := by
  have hne : l.drop offset ≠ [] := List.ne_nil_of_length_pos (by rw [List.length_drop]; omega)
  have hpiece : (l.drop offset).take (min (l.length - offset) n) = (l.drop offset).take n := by
    rw [← List.length_drop, List.take_eq_take_iff]
    omega
  have hrest : (l.drop offset).drop n = l.drop (offset + min (l.length - offset) n) := by
    rw [List.drop_drop]
    by_cases hle : n ≤ l.length - offset
    · rw [Nat.min_eq_right hle]
    · rw [List.drop_eq_nil_of_le (by omega), List.drop_eq_nil_of_le (by omega)]
  rw [cut_of_ne_nil hn hne, hpiece, hrest]

theorem isEmpty_cut (hn : 0 < n) (l : List α) (offset : Nat) :
    (cut n (l.drop offset)).isEmpty = decide (l.length ≤ offset) := by
  by_cases hlast : l.length ≤ offset
  · rw [decide_eq_true hlast, List.drop_eq_nil_of_le hlast, cut_nil]
    rfl
  · rw [decide_eq_false hlast, cut_drop hn (by omega)]
    rfl

theorem cut_induction (hn : 0 < n) {P : List α → List (List α) → Prop} (nil : P [] [])
    (more : ∀ l, l ≠ [] → P (l.drop n) (cut n (l.drop n)) → P l (l.take n :: cut n (l.drop n)))
    (l : List α) : P l (cut n l) := by
  induction hk : l.length using Nat.strongRecOn generalizing l with
  | _ k ih =>
    by_cases hl : l = []
    · rw [hl, cut_nil]
      exact nil
    · have hpos := List.length_pos_iff.mpr hl
      rw [cut_of_ne_nil hn hl]
      refine more l hl (ih (l.drop n).length ?_ (l.drop n) rfl)
      rw [List.length_drop]
      omega

theorem flatten_cut (hn : 0 < n) (l : List α) : (cut n l).flatten = l := by
  refine cut_induction (P := fun l ps => ps.flatten = l) hn ?_ ?_ l
  · rfl
  · intro l _ ih
    rw [List.flatten_cons, ih, List.take_append_drop]

theorem length_cut_le (hn : 0 < n) (l : List α) : (cut n l).length ≤ l.length := by
  refine cut_induction (P := fun l ps => ps.length ≤ l.length) hn ?_ ?_ l
  · exact Nat.le_refl _
  · intro l hl ih
    have hpos := List.length_pos_iff.mpr hl
    rw [List.length_drop] at ih
    rw [List.length_cons]
    omega

theorem length_cut (hn : 0 < n) (l : List α) : (cut n l).length = (l.length + n - 1) / n := by
  refine cut_induction (P := fun l ps => ps.length = (l.length + n - 1) / n) hn ?_ ?_ l
  · exact (Nat.div_eq_of_lt (by simp only [List.length_nil]; omega)).symm
  · intro l hl ih
    have hpos := List.length_pos_iff.mpr hl
    rw [List.length_cons, ih, List.length_drop]
    by_cases hle : l.length ≤ n
    · have hrest : (l.length - n + n - 1) / n = 0 := Nat.div_eq_of_lt (by omega)
      have hone : (l.length + n - 1) / n = 1 := by
        rw [Nat.div_eq_iff (by omega)]
        omega
      rw [hrest, hone]
    · have hsplit : l.length + n - 1 = l.length - n + n - 1 + n := by omega
      rw [hsplit, Nat.add_div_right _ hn]

theorem length_of_mem_cut (hn : 0 < n) (l : List α) : ∀ p ∈ cut n l, p.length ≤ n := by
  refine cut_induction (P := fun _ ps => ∀ p ∈ ps, p.length ≤ n) hn ?_ ?_ l
  · intro p hp
    cases hp
  · intro l _ ih p hp
    rcases List.mem_cons.mp hp with rfl | hp
    · rw [List.length_take]
      omega
    · exact ih p hp

end

/-! ### Numbered keys -/

section
variable [DecidableEq κ] (slot : Nat → κ)

def putFrom : Nat → List ν → (κ → Option ν) → κ → Option ν
  | _, [], m => m
  | i, p :: ps, m => putFrom (i + 1) ps (Function.update m (slot i) (some p))

def delBelow (n : Nat) (m : κ → Option ν) : κ → Option ν :=
  (List.range n).foldl (fun m i => Function.update m (slot i) none) m

def putWhere (ok : Nat → Bool) : Nat → List ν → (κ → Option ν) → κ → Option ν
  | _, [], m => m
  | i, p :: ps, m => putWhere ok (i + 1) ps (if ok i then Function.update m (slot i) (some p) else m)

def delWhere (ok : Nat → Bool) (n : Nat) (m : κ → Option ν) : κ → Option ν :=
  (List.range n).foldl (fun m i => if ok i then Function.update m (slot i) none else m) m

variable {slot} {m : κ → Option ν}

theorem putFrom_other {x : κ} (hx : ∀ j, x ≠ slot j) (i : Nat) (ps : List ν) :
    putFrom slot i ps m x = m x := by
  induction ps generalizing i m with
  | nil => rfl
  | cons p ps ih => rw [putFrom, ih, Function.update_of_ne (hx i)]

theorem putFrom_before (hslot : Function.Injective slot) {i j : Nat} (hj : j < i) (ps : List ν) :
    putFrom slot i ps m (slot j) = m (slot j) := by
  induction ps generalizing i m with
  | nil => rfl
  | cons p ps ih =>
    have hne : slot j ≠ slot i := fun h => absurd (hslot h) (by omega)
    rw [putFrom, ih (by omega), Function.update_of_ne hne]

theorem putFrom_piece (hslot : Function.Injective slot) {i j : Nat} {ps : List ν} {p : ν}
    (hp : ps[j]? = some p) : putFrom slot i ps m (slot (i + j)) = some p := by
  induction ps generalizing i j m with
  | nil => cases hp
  | cons q ps ih =>
    rw [putFrom]
    cases j with
    | zero =>
      cases hp
      have hkept := putFrom_before (m := Function.update m (slot i) (some p)) hslot
        (Nat.lt_succ_self i) ps
      rw [Function.update_self] at hkept
      exact hkept
    | succ j =>
      have hnext : i + (j + 1) = i + 1 + j := by omega
      rw [hnext]
      exact ih hp

theorem putFrom_after (hslot : Function.Injective slot) {i j : Nat} {ps : List ν}
    (hj : i + ps.length ≤ j) : putFrom slot i ps m (slot j) = m (slot j) := by
  induction ps generalizing i m with
  | nil => rfl
  | cons p ps ih =>
    rw [List.length_cons] at hj
    have hne : slot j ≠ slot i := fun h => absurd (hslot h) (by omega)
    rw [putFrom, ih (by omega), Function.update_of_ne hne]

theorem delBelow_eq (hslot : Function.Injective slot) (n j : Nat) :
    delBelow slot n m (slot j) = if j < n then none else m (slot j) := by
  unfold delBelow
  induction n with
  | zero => rfl
  | succ n ih =>
    rw [List.range_succ, List.foldl_append, List.foldl_cons, List.foldl_nil]
    by_cases hj : j = n
    · rw [hj, Function.update_self, if_pos (Nat.lt_succ_self n)]
    · have hlt : j < n + 1 ↔ j < n := by omega
      rw [Function.update_of_ne fun h => hj (hslot h), ih]
      simp only [hlt]

theorem delBelow_other {x : κ} (hx : ∀ j, x ≠ slot j) (n : Nat) : delBelow slot n m x = m x := by
  unfold delBelow
  induction n with
  | zero => rfl
  | succ n ih =>
    rw [List.range_succ, List.foldl_append, List.foldl_cons, List.foldl_nil,
      Function.update_of_ne (hx n), ih]

theorem putWhere_of_ok {ok : Nat → Bool} {i : Nat} {ps : List ν}
    (h : ∀ j < ps.length, ok (i + j) = true) : putWhere slot ok i ps m = putFrom slot i ps m := by
  induction ps generalizing i m with
  | nil => rfl
  | cons p ps ih =>
    have hi : ok i = true := h 0 (Nat.zero_lt_succ _)
    rw [putWhere, putFrom, if_pos hi]
    refine ih fun j hj => ?_
    rw [Nat.add_assoc, Nat.add_comm 1 j]
    exact h (j + 1) (Nat.succ_lt_succ hj)

theorem delWhere_other {ok : Nat → Bool} {x : κ} (hx : ∀ j, x ≠ slot j) (n : Nat) :
    delWhere slot ok n m x = m x := by
  unfold delWhere
  induction n with
  | zero => rfl
  | succ n ih =>
    rw [List.range_succ, List.foldl_append, List.foldl_cons, List.foldl_nil]
    split_ifs
    · rw [Function.update_of_ne (hx n), ih]
    · exact ih

theorem delWhere_none {ok : Nat → Bool} {n : Nat} (h : ∀ i < n, ok i = false) :
    delWhere slot ok n m = m := by
  unfold delWhere
  induction n with
  | zero => rfl
  | succ n ih =>
    rw [List.range_succ, List.foldl_append, List.foldl_cons, List.foldl_nil, ih fun i hi => h i (by omega),
      h n (by omega)]
    rfl

theorem delWhere_eq (hslot : Function.Injective slot) (ok : Nat → Bool) (n j : Nat) :
    delWhere slot ok n m (slot j) = if j < n ∧ ok j = true then none else m (slot j) := by
  unfold delWhere
  induction n with
  | zero => rfl
  | succ n ih =>
    rw [List.range_succ, List.foldl_append, List.foldl_cons, List.foldl_nil]
    by_cases hj : j = n
    · subst hj
      by_cases hok : ok j = true
      · rw [if_pos hok, Function.update_self, if_pos ⟨Nat.lt_succ_self j, hok⟩]
      · rw [if_neg hok, ih, if_neg fun h => hok h.2, if_neg fun h => hok h.2]
    · have hlt : j < n + 1 ↔ j < n := by omega
      simp only [hlt]
      rw [← ih]
      split_ifs
      · exact Function.update_of_ne (fun h => hj (hslot h)) _ _
      · rfl

end

end CrustSworker.Pieces

import Mathlib.Algebra.BigOperators.Group.List.Basic
import Mathlib.Algebra.GroupWithZero.Nat

/-!
# Ordered association lists

`std::map` as the list of its key/value pairs. `insertKey` is `operator[]` followed
by an assignment: it overwrites the value of a present key and otherwise puts the
pair in front of the first larger key. The two lookup laws hold for every list, so
proofs that only read values back never need the order; a loop over the pairs needs it to
know that it meets each key once.
-/

namespace CrustSworker.OrderedMap

variable {κ ν : Type} [DecidableEq κ]

def findKey (k : κ) : List (κ × ν) → Option ν
  | [] => none
  | (k', v) :: m => if k = k' then some v else findKey k m

def insertKey (lt : κ → κ → Bool) (k : κ) (v : ν) : List (κ × ν) → List (κ × ν)
  | [] => [(k, v)]
  | (k', v') :: m =>
    if k = k' then (k, v) :: m
    else if lt k k' then (k, v) :: (k', v') :: m
    else (k', v') :: insertKey lt k v m

@[simp] theorem findKey_insertKey_self (lt : κ → κ → Bool) (k : κ) (v : ν) (m : List (κ × ν)) :
    findKey k (insertKey lt k v m) = some v := by
  induction m with
  | nil => simp [insertKey, findKey]
  | cons p m ih =>
    obtain ⟨k', v'⟩ := p
    simp only [insertKey]
    split_ifs with hk hlt
    · simp [findKey]
    · simp [findKey]
    · simp [findKey, hk, ih]

theorem findKey_insertKey_ne (lt : κ → κ → Bool) {k j : κ} (hj : j ≠ k) (v : ν)
    (m : List (κ × ν)) : findKey j (insertKey lt k v m) = findKey j m := by
  induction m with
  | nil => simp [insertKey, findKey, hj]
  | cons p m ih =>
    obtain ⟨k', v'⟩ := p
    simp only [insertKey]
    split_ifs with hk hlt
    · subst hk
      simp [findKey, hj]
    · simp [findKey, hj]
    · simp [findKey, ih]

/-! ### Order -/

structure IsOrder (lt : κ → κ → Bool) : Prop where
  irrefl : ∀ k, lt k k = false
  trans : ∀ a b c, lt a b = true → lt b c = true → lt a c = true
  total : ∀ a b, a ≠ b → lt a b = false → lt b a = true

def Sorted (lt : κ → κ → Bool) (m : List (κ × ν)) : Prop :=
  m.Pairwise fun p q => lt p.1 q.1 = true

omit [DecidableEq κ] in
theorem sorted_nil (lt : κ → κ → Bool) : Sorted lt ([] : List (κ × ν)) := List.Pairwise.nil

theorem mem_insertKey {lt : κ → κ → Bool} {k : κ} {v : ν} {m : List (κ × ν)} {p : κ × ν}
    (h : p ∈ insertKey lt k v m) : p = (k, v) ∨ p ∈ m := by
  induction m with
  | nil => simpa [insertKey] using h
  | cons q m ih =>
    simp only [insertKey] at h
    split_ifs at h
    · rcases List.mem_cons.mp h with h | h
      · exact .inl h
      · exact .inr (List.mem_cons_of_mem _ h)
    · rcases List.mem_cons.mp h with h | h
      · exact .inl h
      · exact .inr h
    · rcases List.mem_cons.mp h with h | h
      · exact .inr (h ▸ List.mem_cons_self)
      · exact (ih h).imp id (List.mem_cons_of_mem _)

theorem Sorted.insertKey {lt : κ → κ → Bool} (hlt : IsOrder lt) {m : List (κ × ν)}
    (hm : Sorted lt m) (k : κ) (v : ν) : Sorted lt (insertKey lt k v m) := by
  induction m with
  | nil => exact List.pairwise_singleton _ _
  | cons p m ih =>
    obtain ⟨k', v'⟩ := p
    obtain ⟨hhead, htail⟩ := List.pairwise_cons.mp hm
    simp only [OrderedMap.insertKey]
    split_ifs with hk hkk
    · subst hk
      exact List.pairwise_cons.mpr ⟨hhead, htail⟩
    · refine List.pairwise_cons.mpr ⟨fun q hq => ?_, hm⟩
      rcases List.mem_cons.mp hq with rfl | hq
      · exact hkk
      · exact hlt.trans _ _ _ hkk (hhead q hq)
    · refine List.pairwise_cons.mpr ⟨fun q hq => ?_, ih htail⟩
      rcases mem_insertKey hq with rfl | hq
      · exact hlt.total _ _ hk (by simpa using hkk)
      · exact hhead q hq

theorem passes_smaller {lt : κ → κ → Bool} (hlt : IsOrder lt) {q : κ × ν} {k : κ}
    (hq : lt q.1 k = true) (v : ν) (m : List (κ × ν)) :
    insertKey lt k v (q :: m) = q :: insertKey lt k v m ∧ findKey k (q :: m) = findKey k m := by
  have hne : k ≠ q.1 := by
    rintro rfl
    rw [hlt.irrefl] at hq
    cases hq
  have hback : ¬ lt k q.1 = true := by
    intro hb
    have := hlt.trans _ _ _ hb hq
    rw [hlt.irrefl] at this
    cases this
  rw [OrderedMap.insertKey, if_neg hne, if_neg hback, findKey, if_neg hne]
  exact ⟨rfl, rfl⟩

theorem insertKey_last {lt : κ → κ → Bool} (hlt : IsOrder lt) {m : List (κ × ν)} {k : κ} {v : ν}
    (h : ∀ q ∈ m, lt q.1 k = true) : insertKey lt k v m = m ++ [(k, v)] := by
  induction m with
  | nil => rfl
  | cons q m ih =>
    rw [(passes_smaller hlt (h q List.mem_cons_self) v m).1,
      ih fun q hq => h q (List.mem_cons_of_mem _ hq)]
    rfl

theorem insertKey_over_last {lt : κ → κ → Bool} (hlt : IsOrder lt) {m : List (κ × ν)} {k : κ}
    (v w : ν) (h : ∀ q ∈ m, lt q.1 k = true) :
    insertKey lt k v (m ++ [(k, w)]) = m ++ [(k, v)] ∧ findKey k (m ++ [(k, w)]) = some w := by
  induction m with
  | nil => simp [OrderedMap.insertKey, findKey]
  | cons q m ih =>
    have hpass := passes_smaller hlt (h q List.mem_cons_self) v (m ++ [(k, w)])
    obtain ⟨hi, hf⟩ := ih fun q hq => h q (List.mem_cons_of_mem _ hq)
    rw [List.cons_append, hpass.1, hpass.2, hi, hf]
    exact ⟨rfl, rfl⟩

omit [DecidableEq κ] in
theorem Sorted.head_ne {lt : κ → κ → Bool} (hlt : IsOrder lt) {p : κ × ν} {m : List (κ × ν)}
    (hm : Sorted lt (p :: m)) : ∀ q ∈ m, q.1 ≠ p.1 := by
  intro q hq heq
  have h := (List.pairwise_cons.mp hm).1 q hq
  rw [heq, hlt.irrefl] at h
  cases h

theorem findKey_none {k : κ} {m : List (κ × ν)} (h : ∀ q ∈ m, q.1 ≠ k) : findKey k m = none := by
  induction m with
  | nil => rfl
  | cons p m ih =>
    obtain ⟨k', v'⟩ := p
    have hne : k ≠ k' := fun heq => h (k', v') List.mem_cons_self heq.symm
    rw [findKey, if_neg hne]
    exact ih fun q hq => h q (List.mem_cons_of_mem _ hq)

theorem mem_of_findKey {k : κ} {v : ν} {m : List (κ × ν)} (h : findKey k m = some v) :
    (k, v) ∈ m := by
  induction m with
  | nil => cases h
  | cons p m ih =>
    obtain ⟨k', v'⟩ := p
    rw [findKey] at h
    split_ifs at h with hk
    · cases h
      rw [hk]
      exact List.mem_cons_self
    · exact List.mem_cons_of_mem _ (ih h)

theorem findKey_of_mem {lt : κ → κ → Bool} (hlt : IsOrder lt) {m : List (κ × ν)}
    (hm : Sorted lt m) {p : κ × ν} (h : p ∈ m) : findKey p.1 m = some p.2 := by
  induction m with
  | nil => cases h
  | cons q m ih =>
    rcases List.mem_cons.mp h with rfl | hp
    · rw [findKey, if_pos rfl]
    · rw [findKey, if_neg (hm.head_ne hlt p hp)]
      exact ih (List.pairwise_cons.mp hm).2 hp

/-! ### Sums over the values -/

def weigh (w : ν → Nat) (m : List (κ × ν)) : Nat := (m.map fun p => w p.2).sum

def weightAt (w : ν → Nat) (m : List (κ × ν)) (k : κ) : Nat := ((findKey k m).map w).getD 0

theorem sum_insertKey {M : Type} [AddCommMonoid M] {lt : κ → κ → Bool} (hlt : IsOrder lt)
    {m : List (κ × ν)} (hm : Sorted lt m) {w w' : κ × ν → M} {k : κ}
    (hw : ∀ p ∈ m, p.1 ≠ k → w' p = w p) (v : ν) :
    ((insertKey lt k v m).map w').sum + ((findKey k m).map fun v => w (k, v)).getD 0 =
      (m.map w).sum + w' (k, v) := by
  induction m with
  | nil => simp [insertKey, findKey]
  | cons p m ih =>
    obtain ⟨k', v'⟩ := p
    obtain ⟨hhead, htail⟩ := List.pairwise_cons.mp hm
    have hrest : ∀ p ∈ m, p.1 ≠ k → w' p = w p := fun p hp => hw p (List.mem_cons_of_mem _ hp)
    have ih := ih htail hrest
    simp only [OrderedMap.insertKey]
    split_ifs with hk hkk
    · subst hk
      have hsame : m.map w' = m.map w :=
        List.map_congr_left fun q hq => hrest q hq (hm.head_ne hlt q hq)
      simp only [findKey, List.map_cons, List.sum_cons, if_true, Option.map_some, Option.getD_some,
        hsame]
      rw [add_assoc, add_comm]
      exact congrArg (· + w' (k, v)) (add_comm _ _)
    · have habsent : ∀ q ∈ (k', v') :: m, q.1 ≠ k := by
        intro q hq heq
        rcases List.mem_cons.mp hq with rfl | hq
        · exact hk heq.symm
        · have hback := hhead q hq
          rw [heq] at hback
          have hloop := hlt.trans _ _ _ hkk hback
          rw [hlt.irrefl] at hloop
          cases hloop
      have hsame : ((k', v') :: m).map w' = ((k', v') :: m).map w :=
        List.map_congr_left fun q hq => hw q hq (habsent q hq)
      rw [findKey_none habsent, List.map_cons, List.sum_cons, hsame, Option.map_none,
        Option.getD_none, add_zero, add_comm]
    · have hhere : w' (k', v') = w (k', v') := hw _ List.mem_cons_self fun heq => hk heq.symm
      simp only [findKey, hk, if_false, List.map_cons, List.sum_cons, hhere]
      rw [add_assoc, ih, add_assoc]

theorem weigh_insertKey {lt : κ → κ → Bool} (hlt : IsOrder lt) {m : List (κ × ν)}
    (hm : Sorted lt m) (w : ν → Nat) (k : κ) (v : ν) :
    weigh w (insertKey lt k v m) + weightAt w m k = weigh w m + w v :=
  sum_insertKey hlt hm (w := fun p => w p.2) (fun _ _ _ => rfl) v

theorem insertKey_perm (lt : κ → κ → Bool) {m : List (κ × ν)} {k : κ} (h : ∀ q ∈ m, q.1 ≠ k)
    (v : ν) : (insertKey lt k v m).Perm ((k, v) :: m) := by
  induction m with
  | nil => exact List.Perm.refl _
  | cons p m ih =>
    obtain ⟨k', v'⟩ := p
    have hne : k ≠ k' := fun heq => h _ List.mem_cons_self heq.symm
    rw [insertKey, if_neg hne]
    split_ifs
    · exact List.Perm.refl _
    · exact ((ih fun q hq => h q (List.mem_cons_of_mem _ hq)).cons _).trans (List.Perm.swap _ _ _)

theorem insertKey_found {lt : κ → κ → Bool} (hlt : IsOrder lt) {m : List (κ × ν)}
    (hm : Sorted lt m) {k : κ} {v : ν} (h : findKey k m = some v) : insertKey lt k v m = m := by
  induction m with
  | nil => cases h
  | cons p m ih =>
    obtain ⟨k', v'⟩ := p
    obtain ⟨hhead, htail⟩ := List.pairwise_cons.mp hm
    rw [findKey] at h
    split_ifs at h with hk
    · cases h
      rw [OrderedMap.insertKey, if_pos hk, hk]
    · have hlater := hhead _ (mem_of_findKey h)
      rw [(passes_smaller hlt hlater v m).1, ih htail h]

theorem sum_at_key {μ : Type} {lt : κ → κ → Bool} (hlt : IsOrder lt) {m : List (κ × μ)}
    (hm : Sorted lt m) {k : κ} (hk : ∃ e ∈ m, e.1 = k) (c : Nat) :
    (m.map fun e => if e.1 = k then c else 0).sum = c := by
  induction m with
  | nil =>
    obtain ⟨e, he, -⟩ := hk
    cases he
  | cons q m ih =>
    rw [List.map_cons, List.sum_cons]
    by_cases hq : q.1 = k
    · have hrest : (m.map fun e => if e.1 = k then c else 0) = m.map fun _ => 0 := by
        refine List.map_congr_left fun e he => if_neg ?_
        rw [← hq]
        exact hm.head_ne hlt e he
      rw [if_pos hq, hrest]
      simp
    · obtain ⟨e, he, hek⟩ := hk
      have hmem : e ∈ m := by
        rcases List.mem_cons.mp he with rfl | he
        · exact absurd hek hq
        · exact he
      rw [if_neg hq, ih (List.pairwise_cons.mp hm).2 ⟨e, hmem, hek⟩]
      omega

theorem sum_weightAt {μ : Type} {lt : κ → κ → Bool} (hlt : IsOrder lt) {d : List (κ × ν)}
    (hd : Sorted lt d) {m : List (κ × μ)} (hm : Sorted lt m) (w : ν → Nat)
    (hkeys : ∀ p ∈ d, w p.2 ≠ 0 → ∃ e ∈ m, e.1 = p.1) :
    (m.map fun e => weightAt w d e.1).sum = weigh w d := by
  induction d with
  | nil => simp [weightAt, weigh, findKey]
  | cons p d ih =>
    have hsplit : (fun e : κ × μ => weightAt w (p :: d) e.1) =
        fun e => (if e.1 = p.1 then w p.2 else 0) + weightAt w d e.1 := by
      funext e
      by_cases he : e.1 = p.1
      · rw [if_pos he]
        simp [weightAt, findKey, he, findKey_none (hd.head_ne hlt)]
      · rw [if_neg he]
        simp [weightAt, findKey, he]
    have hhead : (m.map fun e => if e.1 = p.1 then w p.2 else 0).sum = w p.2 := by
      by_cases hw : w p.2 = 0
      · simp [hw]
      · exact sum_at_key hlt hm (hkeys p List.mem_cons_self hw) _
    rw [hsplit, List.sum_map_add, hhead,
      ih (List.pairwise_cons.mp hd).2 fun q hq => hkeys q (List.mem_cons_of_mem _ hq)]
    rfl

end CrustSworker.OrderedMap

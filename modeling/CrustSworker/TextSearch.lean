import Mathlib.Data.List.Basic

/-!
# Searching a text

`std::string::find`: the first position, at or after a given one, where a pattern
occurs. `FirstAt` says the same without positions, as a split of the text, and
`NthAfter` repeats it: what is left behind the occurrence number `n` when each search
starts behind the previous one. `Marked` is the form in which a text is written: pieces
in which no occurrence starts, with the pattern between them.
-/

namespace CrustSworker.TextSearch

variable {α : Type}

structure FirstAt (pat s pre rest : List α) : Prop where
  split : s = pre ++ pat ++ rest
  first : ∀ k < pre.length, ¬ pat <+: s.drop k

inductive NthAfter (pat : List α) : Nat → List α → List α → Prop
  | zero {s pre rest : List α} (h : FirstAt pat s pre rest) : NthAfter pat 0 s rest
  | succ {n : Nat} {s pre mid rest : List α} (h : FirstAt pat s pre mid)
      (hn : NthAfter pat n mid rest) : NthAfter pat (n + 1) s rest

theorem FirstAt.of_head {pat s : List α} (h : pat <+: s) :
    FirstAt pat s [] (s.drop pat.length) where
  split := by simpa using List.prefix_iff_eq_append.mp h |>.symm
  first := by simp

theorem FirstAt.cons {pat s pre rest : List α} {c : α} (h : FirstAt pat s pre rest)
    (hc : ¬ pat <+: c :: s) : FirstAt pat (c :: s) (c :: pre) rest where
  split := by rw [h.split]; rfl
  first := by
    intro k hk
    cases k with
    | zero => exact hc
    | succ k => exact h.first k (by simpa using hk)

section
variable [DecidableEq α]

def search (pat : List α) : List α → Option Nat
  | [] => if pat = [] then some 0 else none
  | c :: s => if pat.isPrefixOf (c :: s) then some 0 else (search pat s).map (· + 1)

def find (pat s : List α) (pos : Nat) : Option Nat :=
  if pos ≤ s.length then (search pat (s.drop pos)).map (· + pos) else none

theorem search_sound {pat s : List α} {i : Nat} (h : search pat s = some i) :
    ∃ pre rest, FirstAt pat s pre rest ∧ pre.length = i := by
  induction s generalizing i with
  | nil =>
    simp only [search] at h
    split_ifs at h with hp
    cases h
    subst hp
    exact ⟨[], [], .of_head List.prefix_rfl, rfl⟩
  | cons c s ih =>
    simp only [search, List.isPrefixOf_iff_prefix] at h
    split_ifs at h with hp
    · cases h
      exact ⟨[], _, .of_head hp, rfl⟩
    · obtain ⟨j, hj, rfl⟩ := Option.map_eq_some_iff.mp h
      obtain ⟨pre, rest, hf, rfl⟩ := ih hj
      exact ⟨c :: pre, rest, hf.cons hp, rfl⟩

theorem search_complete {pat s pre rest : List α} (h : FirstAt pat s pre rest) :
    search pat s = some pre.length := by
  induction pre generalizing s with
  | nil =>
    have hp : pat <+: s := ⟨rest, by simpa using h.split.symm⟩
    cases s with
    | nil => simp [search, List.prefix_nil.mp hp]
    | cons c s => simp [search, hp]
  | cons c pre ih =>
    have hs := h.split
    have hc : ¬ pat <+: s := by simpa using h.first 0 (by simp)
    subst hs
    have htail : FirstAt pat (pre ++ pat ++ rest) pre rest :=
      ⟨rfl, fun k hk => by simpa using h.first (k + 1) (by simpa using hk)⟩
    simp only [List.cons_append, search, List.isPrefixOf_iff_prefix] at hc ⊢
    rw [if_neg hc, ih htail]
    rfl

theorem find_sound {pat s : List α} {pos p : Nat} (h : find pat s pos = some p) :
    ∃ pre, FirstAt pat (s.drop pos) pre (s.drop (p + pat.length)) ∧ p = pos + pre.length ∧
      p + pat.length ≤ s.length := by
  unfold find at h
  split_ifs at h with hpos
  obtain ⟨i, hi, rfl⟩ := Option.map_eq_some_iff.mp h
  obtain ⟨pre, rest, hf, rfl⟩ := search_sound hi
  have hlen := congrArg List.length hf.split
  simp only [List.length_drop, List.length_append] at hlen
  have hrest : s.drop (pre.length + pos + pat.length) = rest := by
    have hd : s.drop (pre.length + pos + pat.length) =
        (s.drop pos).drop (pre ++ pat).length := by
      rw [List.drop_drop, List.length_append]
      congr 1
      omega
    rw [hd, hf.split, List.drop_left]
  rw [hrest]
  exact ⟨pre, hf, by omega, by omega⟩

theorem find_complete {pat s pre rest : List α} {pos : Nat} (hpos : pos ≤ s.length)
    (h : FirstAt pat (s.drop pos) pre rest) : find pat s pos = some (pre.length + pos) := by
  rw [find, if_pos hpos, search_complete h]
  rfl

theorem FirstAt.unique {pat s pre rest pre' rest' : List α} (h : FirstAt pat s pre rest)
    (h' : FirstAt pat s pre' rest') : pre = pre' ∧ rest = rest' := by
  have hlen : pre.length = pre'.length := by
    have := search_complete h
    rw [search_complete h'] at this
    exact (Option.some.inj this).symm
  have heq := h.split.symm.trans h'.split
  rw [List.append_assoc, List.append_assoc] at heq
  obtain ⟨hpre, hrest⟩ := List.append_inj heq hlen
  exact ⟨hpre, List.append_cancel_left hrest⟩

theorem NthAfter.unique {pat : List α} {n : Nat} {s rest rest' : List α}
    (h : NthAfter pat n s rest) (h' : NthAfter pat n s rest') : rest = rest' := by
  induction h with
  | zero hf =>
    cases h' with
    | zero hf' => exact (hf.unique hf').2
  | succ hf _ ih =>
    cases h' with
    | succ hf' hn' =>
      obtain ⟨-, rfl⟩ := hf.unique hf'
      exact ih hn'

end

/-! ### Marked texts -/

/-- No occurrence of `pat` starts inside `u`, whatever follows. -/
def Skips (pat u : List α) : Prop := ∀ v, ∀ k < u.length, ¬ pat <+: (u ++ v).drop k

/-- The pattern stands in front of each of the pieces, and nowhere else. -/
inductive Marked (pat : List α) : List (List α) → List α → Prop
  | nil {s : List α} (h : Skips pat s) : Marked pat [] s
  | cons {gap x s : List α} {xs : List (List α)} (hgap : Skips pat gap) (hx : Skips pat x)
      (h : Marked pat xs s) : Marked pat (x :: xs) (gap ++ pat ++ x ++ s)

section
variable {pat : List α}

theorem skips_nil : Skips pat [] := fun _ k hk => absurd hk (Nat.not_lt_zero k)

theorem Skips.append {u v : List α} (hu : Skips pat u) (hv : Skips pat v) : Skips pat (u ++ v) := by
  intro rest k hk
  by_cases hlt : k < u.length
  · rw [List.append_assoc]
    exact hu (v ++ rest) k hlt
  · have hdrop : (u ++ v ++ rest).drop k = (v ++ rest).drop (k - u.length) := by
      rw [List.append_assoc, List.drop_append, List.drop_eq_nil_of_le (Nat.le_of_not_lt hlt),
        List.nil_append]
    rw [hdrop]
    refine hv rest (k - u.length) ?_
    rw [List.length_append] at hk
    omega

theorem skips_of_not_mem {c : α} {p u : List α} (h : c ∉ u) : Skips (c :: p) u := by
  intro v k hk hpre
  have hget : (u ++ v).drop k = u[k] :: (u ++ v).drop (k + 1) := by
    rw [List.drop_eq_getElem_cons (by rw [List.length_append]; omega),
      List.getElem_append_left hk]
  rw [hget, List.cons_prefix_cons] at hpre
  exact h (hpre.1 ▸ List.getElem_mem hk)

theorem skips_of_differs {u : List α}
    (h : ∀ k < u.length, ¬ pat <+: u.drop k ∧ ¬ u.drop k <+: pat) : Skips pat u := by
  intro v k hk hpre
  rw [List.drop_append_of_le_length (Nat.le_of_lt hk)] at hpre
  rcases List.prefix_or_prefix_of_prefix hpre (List.prefix_append _ v) with hle | hge
  · exact (h k hk).1 hle
  · exact (h k hk).2 hge

theorem Marked.prepend {u s : List α} {xs : List (List α)} (hu : Skips pat u)
    (h : Marked pat xs s) : Marked pat xs (u ++ s) := by
  cases h with
  | nil hs => exact .nil (hu.append hs)
  | @cons gap x s xs hgap hx hrest =>
    have heq : u ++ (gap ++ pat ++ x ++ s) = (u ++ gap) ++ pat ++ x ++ s := by
      simp only [List.append_assoc]
    rw [heq]
    exact .cons (hu.append hgap) hx hrest

theorem Marked.append {s t : List α} {xs ys : List (List α)} (h : Marked pat xs s)
    (h' : Marked pat ys t) : Marked pat (xs ++ ys) (s ++ t) := by
  induction h with
  | nil hs => exact h'.prepend hs
  | @cons gap x s xs hgap hx _ ih =>
    have heq : gap ++ pat ++ x ++ s ++ t = gap ++ pat ++ x ++ (s ++ t) := List.append_assoc _ _ _
    rw [heq]
    exact .cons hgap hx ih

theorem not_prefix_of_second {c d : α} {p w u : List α} (hd : d ∉ u) (hcd : c ≠ d) {k : Nat}
    (hk : k ≤ u.length) : ¬ (c :: d :: p) <+: (c :: (u ++ c :: w)).drop k := by
  rintro ⟨t, ht⟩
  have hnext : (u ++ c :: w).drop k = d :: (p ++ t) := by
    have htail := congrArg List.tail ht
    rw [List.tail_drop, List.drop_succ_cons] at htail
    exact htail.symm
  rcases Nat.lt_or_eq_of_le hk with hlt | rfl
  · rw [List.drop_append_of_le_length hk, List.drop_eq_getElem_cons hlt] at hnext
    exact hd ((List.cons.inj hnext).1 ▸ List.getElem_mem hlt)
  · rw [List.drop_left] at hnext
    exact hcd (List.cons.inj hnext).1

theorem FirstAt.not_mem {c : α} {s pre rest : List α} (h : FirstAt [c] s pre rest) : c ∉ pre := by
  intro hmem
  obtain ⟨k, hk, rfl⟩ := List.getElem_of_mem hmem
  refine h.first k hk ?_
  rw [h.split, List.append_assoc, List.drop_append_of_le_length (Nat.le_of_lt hk),
    List.drop_eq_getElem_cons hk]
  exact List.prefix_append [pre[k]] _

theorem not_mem_of_nowhere {c : α} {s : List α} (h : ∀ k, ¬ [c] <+: s.drop k) : c ∉ s := by
  intro hmem
  obtain ⟨k, hk, rfl⟩ := List.getElem_of_mem hmem
  refine h k ?_
  rw [List.drop_eq_getElem_cons hk]
  exact List.prefix_append [s[k]] _

theorem Skips.firstAt {gap : List α} (h : Skips pat gap) (s : List α) :
    FirstAt pat (gap ++ pat ++ s) gap s :=
  ⟨rfl, fun k hk => by
    rw [List.append_assoc]
    exact h (pat ++ s) k hk⟩

theorem Marked.nth {s : List α} {xs : List (List α)} (h : Marked pat xs s) {n : Nat}
    (hn : n < xs.length) :
    ∃ rest, NthAfter pat n s (xs[n] ++ rest) ∧ Skips pat xs[n] ∧
      Marked pat (xs.drop (n + 1)) rest := by
  -- The search for the next mark starts in front of the piece behind the last one.
  have hgo : ∀ u, Skips pat u → ∃ rest, NthAfter pat n (u ++ s) (xs[n] ++ rest) ∧
      Skips pat xs[n] ∧ Marked pat (xs.drop (n + 1)) rest := by
    induction h generalizing n with
    | nil _ => exact absurd hn (Nat.not_lt_zero n)
    | @cons gap x s xs hgap hx hrest ih =>
      intro u hu
      have hfirst : FirstAt pat (u ++ (gap ++ pat ++ x ++ s)) (u ++ gap) (x ++ s) := by
        have heq : u ++ (gap ++ pat ++ x ++ s) = (u ++ gap) ++ pat ++ (x ++ s) := by
          simp only [List.append_assoc]
        rw [heq]
        exact (hu.append hgap).firstAt (x ++ s)
      cases n with
      | zero => exact ⟨s, .zero hfirst, hx, hrest⟩
      | succ n =>
        obtain ⟨rest, hnth, hskip, hmarked⟩ := ih (Nat.lt_of_succ_lt_succ hn) x hx
        exact ⟨rest, .succ hfirst hnth, hskip, hmarked⟩
  exact hgo [] skips_nil

theorem FirstAt.prefix_drop {s pre rest : List α} (h : FirstAt pat s pre rest) :
    pat <+: s.drop pre.length :=
  ⟨rest, by rw [h.split, List.append_assoc, List.drop_left]⟩

theorem Skips.nowhere {u : List α} (h : Skips pat u) (hpat : pat ≠ []) (k : Nat) :
    ¬ pat <+: u.drop k := by
  by_cases hk : k < u.length
  · have hskip := h [] k hk
    rwa [List.append_nil] at hskip
  · rw [List.drop_eq_nil_of_le (Nat.le_of_not_lt hk)]
    exact fun hpre => hpat (List.prefix_nil.mp hpre)

/-! ### Cutting in front of the marks -/

/-- The pieces of a text that is cut in front of every mark behind its first character. -/
inductive CutAt (pat : List α) : List α → List (List α) → Prop
  | last {c : α} {s : List α} (h : ∀ k, ¬ pat <+: s.drop k) : CutAt pat (c :: s) [c :: s]
  | cut {c : α} {s pre rest : List α} {xs : List (List α)} (h : FirstAt pat s pre rest)
      (more : CutAt pat (pat ++ rest) xs) : CutAt pat (c :: s) ((c :: pre) :: xs)

theorem CutAt.flatten {s : List α} {xs : List (List α)} (h : CutAt pat s xs) : xs.flatten = s := by
  induction h with
  | last h => exact List.flatten_singleton
  | cut h _ ih =>
    rw [List.flatten_cons, ih, List.cons_append, ← List.append_assoc, ← h.split]

theorem CutAt.ne_nil {s : List α} {xs : List (List α)} (h : CutAt pat s xs) : xs ≠ [] := by
  cases h <;> exact List.cons_ne_nil _ _

theorem cutAt_flatten {c : α} {p : List α} {us : List (List α)} (hne : us ≠ [])
    (h : ∀ u ∈ us, ∃ x, u = c :: p ++ x ∧ Skips (c :: p) (p ++ x)) :
    CutAt (c :: p) us.flatten us := by
  induction us with
  | nil => exact absurd rfl hne
  | cons u us ih =>
    obtain ⟨x, rfl, hskip⟩ := h u List.mem_cons_self
    cases us with
    | nil =>
      rw [List.flatten_singleton]
      exact .last (hskip.nowhere (List.cons_ne_nil _ _))
    | cons v us =>
      have hrest := ih (List.cons_ne_nil _ _) fun w hw => h w (List.mem_cons_of_mem _ hw)
      obtain ⟨y, rfl, -⟩ := h v (List.mem_cons_of_mem _ List.mem_cons_self)
      have hfirst := hskip.firstAt (y ++ us.flatten)
      have hjoin : p ++ x ++ (c :: p) ++ (y ++ us.flatten) =
          p ++ x ++ ((c :: p ++ y) :: us).flatten := by
        simp only [List.flatten_cons, List.append_assoc]
      rw [hjoin] at hfirst
      refine .cut hfirst ?_
      rwa [← List.append_assoc, ← List.flatten_cons]

end

section
variable [DecidableEq α] {pat : List α}

theorem search_none (hpat : pat ≠ []) {s : List α} :
    search pat s = none ↔ ∀ k, ¬ pat <+: s.drop k := by
  constructor
  · intro hnone
    induction s with
    | nil =>
      intro k hpre
      rw [List.drop_nil, List.prefix_nil] at hpre
      exact hpat hpre
    | cons c s ih =>
      simp only [search, List.isPrefixOf_iff_prefix] at hnone
      split_ifs at hnone with hp
      intro k
      cases k with
      | zero => exact hp
      | succ k => exact ih (Option.map_eq_none_iff.mp hnone) k
  · intro hall
    cases hs : search pat s with
    | none => rfl
    | some i =>
      obtain ⟨pre, rest, hfirst, -⟩ := search_sound hs
      exact absurd hfirst.prefix_drop (hall pre.length)

theorem CutAt.unique {s : List α} {xs ys : List (List α)} (h : CutAt pat s xs)
    (h' : CutAt pat s ys) : xs = ys := by
  induction h generalizing ys with
  | last hnone =>
    cases h' with
    | last _ => rfl
    | cut hfirst _ => exact absurd hfirst.prefix_drop (hnone _)
  | cut hfirst _ ih =>
    cases h' with
    | last hnone => exact absurd hfirst.prefix_drop (hnone _)
    | cut hfirst' hmore' =>
      obtain ⟨rfl, rfl⟩ := hfirst.unique hfirst'
      rw [ih hmore']

theorem exists_cutAt (hpat : pat ≠ []) {s : List α} (hs : s ≠ []) : ∃ xs, CutAt pat s xs := by
  induction hn : s.length using Nat.strongRecOn generalizing s with
  | _ n ih =>
    subst hn
    obtain ⟨c, s, rfl⟩ := List.exists_cons_of_ne_nil hs
    cases hsearch : search pat s with
    | none => exact ⟨_, .last ((search_none hpat).mp hsearch)⟩
    | some i =>
      obtain ⟨pre, rest, hfirst, -⟩ := search_sound hsearch
      have hshort : (pat ++ rest).length < (c :: s).length := by
        rw [hfirst.split]
        simp only [List.length_append, List.length_cons]
        omega
      obtain ⟨xs, hxs⟩ := ih _ hshort (List.append_ne_nil_of_left_ne_nil hpat _) rfl
      exact ⟨_, .cut hfirst hxs⟩

end

end CrustSworker.TextSearch

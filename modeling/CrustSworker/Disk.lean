import Mathlib.Data.List.Infix
import Mathlib.Logic.Function.Basic

/-!
# Files under paths

A disk maps paths to what stands in the file there. A file of a directory has the path of the
directory, the separator and its name; renaming a directory moves every path that begins so.
-/

namespace CrustSworker

abbrev Disk (α ν : Type) := List α → Option ν

namespace Disk

variable {α ν : Type}

section
variable (sep : α)

def inDir (dir name : List α) : List α := dir ++ sep :: name

theorem inDir_eq (dir name : List α) : inDir sep dir name = (dir ++ [sep]) ++ name := by
  rw [inDir, List.append_assoc, List.singleton_append]

theorem inDir_injective (dir : List α) : Function.Injective (inDir sep dir) := by
  intro a b h
  exact (List.cons.inj (List.append_cancel_left h)).2

end

variable [DecidableEq α]

def save (d : Disk α ν) (path : List α) (data : ν) : Disk α ν := Function.update d path (some data)

def remove (d : Disk α ν) (path : List α) : Disk α ν := Function.update d path none

def rename (sep : α) (d : Disk α ν) (old new : List α) : Disk α ν := fun path =>
  if (new ++ [sep]).isPrefixOf path then d (old ++ path.drop new.length)
  else if (old ++ [sep]).isPrefixOf path then none
  else d path

def removeDir (sep : α) (d : Disk α ν) (dir : List α) : Disk α ν := fun path =>
  if path = dir ∨ (dir ++ [sep]).isPrefixOf path then none else d path

variable {d : Disk α ν} {path : List α}

theorem save_self (data : ν) : d.save path data path = some data := Function.update_self _ _ _

theorem save_of_ne {path' : List α} (h : path' ≠ path) (data : ν) :
    d.save path data path' = d path' := Function.update_of_ne h _ _

theorem remove_self : d.remove path path = none := Function.update_self _ _ _

theorem remove_of_ne {path' : List α} (h : path' ≠ path) : d.remove path path' = d path' :=
  Function.update_of_ne h _ _

theorem rename_new (sep : α) (old new name : List α) :
    rename sep d old new (inDir sep new name) = d (inDir sep old name) := by
  have hprefix : (new ++ [sep]).isPrefixOf (inDir sep new name) = true := by
    rw [List.isPrefixOf_iff_prefix, inDir_eq]
    exact List.prefix_append _ _
  rw [rename, if_pos hprefix, inDir, List.drop_left]
  rfl

theorem rename_other (sep : α) {old new : List α} (hold : ¬ (old ++ [sep]) <+: path)
    (hnew : ¬ (new ++ [sep]) <+: path) : rename sep d old new path = d path := by
  rw [← List.isPrefixOf_iff_prefix] at hold hnew
  rw [rename, if_neg hnew, if_neg hold]

theorem removeDir_other (sep : α) {dir : List α} (hne : path ≠ dir)
    (hdir : ¬ (dir ++ [sep]) <+: path) : removeDir sep d dir path = d path := by
  rw [← List.isPrefixOf_iff_prefix] at hdir
  exact if_neg (not_or.mpr ⟨hne, hdir⟩)

omit [DecidableEq α] in
/-- What stands in `q` and begins like something in `p` stands in `p`, unless one of the two
directories is inside the other. -/
theorem inDir_start (sep : α) {p q s t : List α} (h : inDir sep p s <+: inDir sep q t)
    (hpq : ¬ (p ++ [sep]) <+: q) (hqp : ¬ (q ++ [sep]) <+: p) : p = q ∧ s <+: t := by
  have hp : (p ++ [sep]) <+: inDir sep q t := by
    rw [inDir_eq] at h
    exact (List.prefix_append _ _).trans h
  have hq : (q ++ [sep]) <+: inDir sep q t := by
    rw [inDir_eq]
    exact List.prefix_append _ _
  have hsame : p ++ [sep] = q ++ [sep] := by
    rcases List.prefix_or_prefix_of_prefix hp hq with hle | hle
    · exact (List.prefix_concat_iff.mp hle).resolve_right hpq
    · exact ((List.prefix_concat_iff.mp hle).resolve_right hqp).symm
  obtain rfl := List.append_cancel_right hsame
  rw [inDir_eq, inDir_eq, List.prefix_append_right_inj] at h
  exact ⟨rfl, h⟩

/-! ### Moves -/

/-- A file is replaced by another one under a new name. -/
structure Move (α ν : Type) where
  old : List α
  new : List α
  data : ν

def move (d : Disk α ν) (m : Move α ν) : Disk α ν := (d.save m.new m.data).remove m.old

def moveAll (d : Disk α ν) (ms : List (Move α ν)) : Disk α ν := ms.foldl move d

def Move.Apart (m n : Move α ν) : Prop :=
  m.old ≠ n.old ∧ m.old ≠ n.new ∧ m.new ≠ n.old ∧ m.new ≠ n.new

theorem move_other {m : Move α ν} (hold : path ≠ m.old) (hnew : path ≠ m.new) :
    d.move m path = d path := by
  rw [move, remove_of_ne hold, save_of_ne hnew]

theorem move_new {m : Move α ν} (h : m.old ≠ m.new) : d.move m m.new = some m.data := by
  rw [move, remove_of_ne h.symm, save_self]

variable {ms ns : List (Move α ν)}

theorem moveAll_other (h : ∀ m ∈ ms, path ≠ m.old ∧ path ≠ m.new) : d.moveAll ms path = d path := by
  induction ms generalizing d with
  | nil => rfl
  | cons m ms ih =>
    obtain ⟨hold, hnew⟩ := h m List.mem_cons_self
    rw [moveAll, List.foldl_cons, ← moveAll, ih fun n hn => h n (List.mem_cons_of_mem _ hn),
      move_other hold hnew]

theorem moveAll_at (hself : ∀ m ∈ ms, m.old ≠ m.new) (hapart : ms.Pairwise Move.Apart)
    {m : Move α ν} (hm : m ∈ ms) :
    d.moveAll ms m.new = some m.data ∧ d.moveAll ms m.old = none := by
  induction ms generalizing d with
  | nil => exact absurd hm List.not_mem_nil
  | cons n ms ih =>
    obtain ⟨hfirst, hrest⟩ := List.pairwise_cons.mp hapart
    rw [moveAll, List.foldl_cons, ← moveAll]
    rcases List.mem_cons.mp hm with rfl | hm
    · rw [moveAll_other fun k hk => ⟨(hfirst k hk).2.2.1, (hfirst k hk).2.2.2⟩,
        moveAll_other fun k hk => ⟨(hfirst k hk).1, (hfirst k hk).2.1⟩]
      exact ⟨move_new (hself m List.mem_cons_self), remove_self⟩
    · exact ih (fun k hk => hself k (List.mem_cons_of_mem _ hk)) hrest hm

theorem moveAll_back (hself : ∀ m ∈ ms, m.old ≠ m.new)
    (hns : ns.Pairwise Move.Apart) (hfree : ∀ m ∈ ms, d m.new = none)
    (hback : ∀ n ∈ ns, ∃ m ∈ ms, n.old = m.new ∧ n.new = m.old ∧ d m.old = some n.data)
    (hall : ∀ m ∈ ms, ∃ n ∈ ns, n.old = m.new ∧ n.new = m.old) : (d.moveAll ms).moveAll ns = d := by
  have hself' : ∀ n ∈ ns, n.old ≠ n.new := by
    intro n hn
    obtain ⟨m, hm, hold, hnew, -⟩ := hback n hn
    rw [hold, hnew]
    exact (hself m hm).symm
  funext p
  by_cases hp : ∃ n ∈ ns, p = n.old ∨ p = n.new
  · obtain ⟨n, hn, hp⟩ := hp
    obtain ⟨hat, hgone⟩ := @moveAll_at _ _ _ (d.moveAll ms) ns hself' hns n hn
    obtain ⟨m, hm, hold, hnew, hdata⟩ := hback n hn
    rcases hp with rfl | rfl
    · rw [hgone, hold, hfree m hm]
    · rw [hat, hnew, hdata]
  · push Not at hp
    rw [moveAll_other hp, moveAll_other fun m hm => ?_]
    obtain ⟨n, hn, hold, hnew⟩ := hall m hm
    rw [← hold, ← hnew]
    exact (hp n hn).symm

end Disk

end CrustSworker

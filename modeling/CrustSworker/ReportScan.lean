import CrustSworker.Report
import Mathlib.Data.List.Induction

/-!
# The scan as a list of rows

The loop over `checked_files` keeps nine accumulators. All of them can be read off one
list with a row for every entry: the entry, and whether the report lists it as added,
as deleted or not at all. `scanFiles_eq` is the simulation; what a report says about
its entries is then a statement about rows.
-/

namespace CrustSworker.Report

variable {τ : Type}

inductive Kind where
  | plain
  | added
  | deleted
  deriving DecidableEq, Repr

structure Row (τ : Type) where
  item : FileItem τ
  kind : Kind

namespace Row

def listed (r : Row τ) : Bool := decide (r.kind ≠ .plain)

def counted (r : Row τ) : Bool :=
  decide (r.kind = .added) || (decide (r.kind = .plain) && decide (r.item.origin = statusValid))

end Row

def addedOf (rows : List (Row τ)) : List (FileItem τ) :=
  (rows.filter fun r => decide (r.kind = .added)).map Row.item

def deletedOf (rows : List (Row τ)) : List (FileItem τ) :=
  (rows.filter fun r => decide (r.kind = .deleted)).map Row.item

def openList (files : List (FileItem τ)) : Bytes := (files.map fileStr).foldl appendFile (str "[")

def sizeOf (rows : List (Row τ)) : Int := ((rows.filter Row.counted).map fun r => r.item.oldSize).sum

def toScan (rows : List (Row τ)) : Scan τ where
  items := rows.map Row.item
  filesSize := sizeOf rows
  validIdx := rows.findIdxs Row.counted
  addedFiles := openList (addedOf rows)
  deletedFiles := openList (deletedOf rows)
  added := addedOf rows
  deleted := deletedOf rows
  reportedIdx := rows.findIdxs Row.listed
  acc := (rows.filter Row.listed).length

def markWaiting (f : FileItem τ) : FileItem τ := f.setStatusChar waitingStatus f.current

def kindOf (acc : Nat) (f : FileItem τ) : Kind :=
  if acc < workreportFileLimit ∧ isPending f then
    if f.current = statusLost ∨ f.current = statusDeleted then .deleted else .added
  else .plain

def rowsFrom (acc : Nat) : List (FileItem τ) → List (Row τ)
  | [] => []
  | f :: fs =>
    let row : Row τ := ⟨markWaiting f, kindOf acc f⟩
    row :: rowsFrom (if row.listed then acc + 1 else acc) fs

theorem not_mem_findIdxs_length {α : Type} (p : α → Bool) (l : List α) :
    l.length ∉ l.findIdxs p := by
  intro h
  have := List.lt_add_of_mem_findIdxs _ h
  omega

theorem isPending_cases {f : FileItem τ} (h : isPending f = true) :
    (f.current = statusValid ∧ f.origin ≠ statusValid) ∨
      ((f.current = statusLost ∨ f.current = statusDeleted) ∧ f.origin = statusValid) := by
  simp only [isPending, Bool.or_eq_true, Bool.and_eq_true, beq_iff_eq] at h
  obtain ((⟨hc, ho⟩ | ⟨hc, ho⟩) | ⟨hc, ho⟩) | ⟨hc, ho⟩ := h
  · exact .inl ⟨hc, by rw [ho]; decide⟩
  · exact .inl ⟨hc, by rw [ho]; decide⟩
  · exact .inr ⟨.inl hc, ho⟩
  · exact .inr ⟨.inr hc, ho⟩

section
variable {f : FileItem τ} (hf : f.HasStatus)
include hf

theorem markWaiting_current : (markWaiting f).current = f.current :=
  hf.char_ne (by decide) (by decide) _

theorem markWaiting_origin : (markWaiting f).origin = f.origin :=
  hf.char_ne (by decide) (by decide) _

theorem markWaiting_waiting : (markWaiting f).waiting = f.current :=
  hf.char_self (by decide) _

theorem markWaiting_isPending : isPending (markWaiting f) = isPending f := by
  simp only [isPending, markWaiting_current hf, markWaiting_origin hf]

end

theorem openList_append (fs : List (FileItem τ)) (f : FileItem τ) :
    openList (fs ++ [f]) = appendFile (openList fs) (fileStr f) := by
  simp [openList]

theorem toScan_append (rows : List (Row τ)) (r : Row τ) :
    toScan (rows ++ [r]) =
      { items := rows.map Row.item ++ [r.item]
        filesSize := sizeOf rows + if r.counted then r.item.oldSize else 0
        validIdx := rows.findIdxs Row.counted ++ if r.counted then [rows.length] else []
        addedFiles :=
          if r.kind = .added then appendFile (openList (addedOf rows)) (fileStr r.item)
          else openList (addedOf rows)
        deletedFiles :=
          if r.kind = .deleted then appendFile (openList (deletedOf rows)) (fileStr r.item)
          else openList (deletedOf rows)
        added := addedOf rows ++ if r.kind = .added then [r.item] else []
        deleted := deletedOf rows ++ if r.kind = .deleted then [r.item] else []
        reportedIdx := rows.findIdxs Row.listed ++ if r.listed then [rows.length] else []
        acc := (rows.filter Row.listed).length + if r.listed then 1 else 0 } := by
  have hadded : addedOf (rows ++ [r]) = addedOf rows ++ if r.kind = .added then [r.item] else [] := by
    by_cases h : r.kind = .added <;> simp [addedOf, h]
  have hdeleted : deletedOf (rows ++ [r]) =
      deletedOf rows ++ if r.kind = .deleted then [r.item] else [] := by
    by_cases h : r.kind = .deleted <;> simp [deletedOf, h]
  simp only [toScan, hadded, hdeleted, List.map_append, List.map_cons, List.map_nil,
    List.findIdxs_append, List.findIdxs_singleton, Nat.zero_add, Scan.mk.injEq, true_and]
  refine ⟨?_, ?_, ?_, ?_⟩
  · by_cases h : r.counted <;> simp [sizeOf, h]
  · split_ifs <;> simp [openList_append]
  · split_ifs <;> simp [openList_append]
  · by_cases h : r.listed <;> simp [h]

theorem scanFile_toScan (rows : List (Row τ)) {f : FileItem τ} (hf : f.HasStatus) :
    scanFile false (toScan rows) f =
      toScan (rows ++ [⟨markWaiting f, kindOf (rows.filter Row.listed).length f⟩]) := by
  have hcur := markWaiting_current hf
  have horg := markWaiting_origin hf
  have hpen := markWaiting_isPending hf
  have hlen : (toScan rows).items.length = rows.length := by simp [toScan]
  have hmark : f.setStatusChar waitingStatus f.current = markWaiting f := rfl
  have hvalid := not_mem_findIdxs_length Row.counted rows
  have hlisted := not_mem_findIdxs_length Row.listed rows
  rw [toScan_append]
  simp only [scanFile, Bool.false_eq_true, ↓reduceIte, hmark, hlen, horg, hpen]
  by_cases hq : (rows.filter Row.listed).length < workreportFileLimit ∧ isPending f = true
  · have hq' : (toScan rows).acc < workreportFileLimit ∧ isPending f = true := hq
    obtain ⟨hv, ho⟩ | ⟨hl, ho⟩ := isPending_cases hq.2
    · have hnl : ¬ (f.current = statusLost ∨ f.current = statusDeleted) := by
        rw [hv]
        decide
      have hk : kindOf (rows.filter Row.listed).length f = .added := by
        rw [kindOf, if_pos hq, if_neg hnl]
      rw [hk, if_neg ho, if_pos hq', enqueue, hcur, if_neg hnl, if_pos hv]
      have hc : (⟨markWaiting f, .added⟩ : Row τ).counted = true := rfl
      have hl : (⟨markWaiting f, .added⟩ : Row τ).listed = true := rfl
      simp only [toScan, hc, hl, insertIdx, hvalid, hlisted, ↓reduceIte]
      simp
    · have hk : kindOf (rows.filter Row.listed).length f = .deleted := by
        rw [kindOf, if_pos hq, if_pos hl]
      rw [hk, if_pos ho, if_pos hq', enqueue, hcur, if_pos hl]
      have hc : (⟨markWaiting f, .deleted⟩ : Row τ).counted = false := rfl
      have hls : (⟨markWaiting f, .deleted⟩ : Row τ).listed = true := rfl
      simp only [toScan, hc, hls, insertIdx, hvalid, hlisted, ↓reduceIte]
      simp [List.erase_append_right _ hvalid]
  · have hk : kindOf (rows.filter Row.listed).length f = .plain := by
      rw [kindOf, if_neg hq]
    have hq' : ¬ ((toScan rows).acc < workreportFileLimit ∧ isPending f = true) := hq
    have hl : (⟨markWaiting f, .plain⟩ : Row τ).listed = false := rfl
    have hc : (⟨markWaiting f, .plain⟩ : Row τ).counted = decide (f.origin = statusValid) := by
      simp [Row.counted, horg]
    rw [hk]
    by_cases ho : f.origin = statusValid
    · rw [if_pos ho]
      dsimp only
      rw [if_neg hq']
      simp only [toScan, hc, hl, ho, insertIdx, hvalid, ↓reduceIte]
      simp
    · rw [if_neg ho, if_neg hq']
      simp only [toScan, hc, hl, ho]
      simp

theorem foldl_scanFile (files : List (FileItem τ)) (hf : ∀ f ∈ files, f.HasStatus)
    (rows : List (Row τ)) :
    files.foldl (scanFile false) (toScan rows) =
      toScan (rows ++ rowsFrom (rows.filter Row.listed).length files) := by
  induction files generalizing rows with
  | nil => simp [rowsFrom]
  | cons f fs ih =>
    rw [List.foldl_cons, scanFile_toScan rows (hf f (by simp)), ih (fun g hg => hf g (by simp [hg]))]
    simp only [rowsFrom, List.append_assoc, List.singleton_append]
    congr 4
    by_cases h : (⟨markWaiting f, kindOf (rows.filter Row.listed).length f⟩ : Row τ).listed <;>
      simp [h]

theorem scanFiles_eq {files : List (FileItem τ)} (hf : ∀ f ∈ files, f.HasStatus) :
    scanFiles false files = toScan (rowsFrom 0 files) :=
  foldl_scanFile files hf []

/-! ### What the rows say -/

theorem filterMap_findIdxs {α : Type} (p : α → Bool) (l : List α) :
    (l.findIdxs p).filterMap (fun i => l[i]?) = l.filter p := by
  induction l using List.reverseRecOn with
  | nil => rfl
  | append_singleton l a ih =>
    have hold : (l.findIdxs p).filterMap (fun i => (l ++ [a])[i]?) = l.filter p := by
      rw [← ih]
      refine List.filterMap_congr fun i hi => ?_
      have hlt := List.lt_add_of_mem_findIdxs _ hi
      exact List.getElem?_append_left (by omega)
    rw [List.findIdxs_append, List.filterMap_append, hold, List.filter_append]
    congr 1
    rw [List.findIdxs_singleton, Nat.zero_add]
    by_cases hp : p a = true <;> simp [hp]

theorem itemsAt_toScan (rows : List (Row τ)) :
    itemsAt (toScan rows).items (toScan rows).validIdx =
      (rows.filter Row.counted).map Row.item := by
  rw [← filterMap_findIdxs, List.map_filterMap]
  simp only [itemsAt, toScan, List.getElem?_map]

theorem rowsFrom_items (acc : Nat) (files : List (FileItem τ)) :
    (rowsFrom acc files).map Row.item = files.map markWaiting := by
  induction files generalizing acc with
  | nil => rfl
  | cons f fs ih => simp only [rowsFrom, List.map_cons, ih]

/-- A listed entry is listed for what its two statuses say, and its waiting status
repeats the current one. -/
structure RowOk (r : Row τ) : Prop where
  status : r.item.HasStatus
  waiting : r.item.waiting = r.item.current
  added : r.kind = .added → r.item.current = statusValid ∧ r.item.origin ≠ statusValid
  deleted : r.kind = .deleted → r.item.current ≠ statusValid ∧ r.item.origin = statusValid

theorem rowOk_kindOf {f : FileItem τ} (hf : f.HasStatus) (acc : Nat) :
    RowOk ⟨markWaiting f, kindOf acc f⟩ where
  status := hf.set (by decide) _
  waiting := (markWaiting_waiting hf).trans (markWaiting_current hf).symm
  added := by
    dsimp only
    rw [markWaiting_current hf, markWaiting_origin hf, kindOf]
    split_ifs with hq hl
    · simp
    · intro _
      obtain h | h := isPending_cases hq.2
      · exact h
      · exact absurd h.1 hl
    · simp
  deleted := by
    dsimp only
    rw [markWaiting_current hf, markWaiting_origin hf, kindOf]
    split_ifs with hq hl
    · intro _
      have hne : f.current ≠ statusValid := by
        obtain h | h := hl <;> rw [h] <;> decide
      obtain h | h := isPending_cases hq.2
      · exact absurd h.1 hne
      · exact ⟨hne, h.2⟩
    · simp
    · simp

theorem rowsFrom_ok {files : List (FileItem τ)} (hf : ∀ f ∈ files, f.HasStatus) (acc : Nat) :
    ∀ r ∈ rowsFrom acc files, RowOk r := by
  induction files generalizing acc with
  | nil => simp [rowsFrom]
  | cons f fs ih =>
    simp only [rowsFrom, List.mem_cons]
    rintro r (rfl | hr)
    · exact rowOk_kindOf (hf f (by simp)) acc
    · exact ih (fun g hg => hf g (by simp [hg])) _ r hr

end CrustSworker.Report

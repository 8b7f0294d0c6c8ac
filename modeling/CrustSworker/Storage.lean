import CrustSworker.Workload

/-!
# Confirming and deleting a file

`storage_confirm_file` and `storage_delete_file`. Both look through `checked_files`
first and turn to `new_files` only when nothing was found there. The data the host
keeps for a deleted file is not part of the workload.
-/

namespace CrustSworker.Storage

variable {τ : Type}

def findLast {α : Type} (p : α → Bool) (l : List α) : Option Nat :=
  (l.reverse.findIdx? p).map fun i => l.length - 1 - i

def hasHash (hash : Bytes) (f : FileItem τ) : Bool := decide (f.hashText = hash)

def confirmItem (f : FileItem τ) : FileItem τ :=
  if f.current = statusUnconfirmed then f.setStatusChar currentStatus statusValid else f

def oldSizeAt (files : List (FileItem τ)) (i : Nat) : Int :=
  match files[i]? with
  | some f => f.oldSize
  | none => 0

def storageConfirmFile (wl : Workload τ) (hash : Bytes) : Workload τ :=
  match findLast (hasHash hash) wl.checkedFiles with
  | some i =>
    -- A match ends the search whatever its status is.
    { wl with checkedFiles := wl.checkedFiles.modify i confirmItem }.moveWlSpec
      statusValid statusUnconfirmed (oldSizeAt wl.checkedFiles i)
  | none =>
    match findLast (fun f => hasHash hash f && decide (f.current = statusUnconfirmed))
        wl.newFiles with
    | some i =>
      { wl with newFiles := wl.newFiles.modify i confirmItem }.moveWlSpec
        statusValid statusUnconfirmed (oldSizeAt wl.newFiles i)
    | none => wl

def dropSpec (wl : Workload τ) (files : List (FileItem τ)) (i : Nat) : Workload τ :=
  match files[i]? with
  | some f => wl.setWlSpec f.current (-f.oldSize)
  | none => wl

def storageDeleteFile (wl : Workload τ) (hash : Bytes) : Workload τ :=
  match wl.checkedFiles.findIdx? (hasHash hash) with
  | some i =>
    dropSpec { wl with checkedFiles :=
      Workload.setStatusAt wl.checkedFiles i currentStatus statusDeleted } wl.checkedFiles i
  | none =>
    match findLast (hasHash hash) wl.newFiles with
    | some i => dropSpec { wl with newFiles := wl.newFiles.eraseIdx i } wl.newFiles i
    | none => wl

/-! ### What is left alone -/

theorem dropSpec_eq (wl : Workload τ) (files : List (FileItem τ)) (i : Nat) :
    ∃ info, dropSpec wl files i = { wl with wlSpecInfo := info } := by
  unfold dropSpec
  split
  · exact ⟨_, rfl⟩
  · exact ⟨wl.wlSpecInfo, rfl⟩

theorem storageConfirmFile_eq (wl : Workload τ) (hash : Bytes) :
    ∃ checked new info, storageConfirmFile wl hash =
      { wl with checkedFiles := checked, newFiles := new, wlSpecInfo := info } := by
  unfold storageConfirmFile
  split
  · obtain ⟨info, h⟩ := Workload.moveWlSpec_eq _ _ _ _
    exact ⟨_, _, info, h⟩
  · split
    · obtain ⟨info, h⟩ := Workload.moveWlSpec_eq _ _ _ _
      exact ⟨_, _, info, h⟩
    · exact ⟨wl.checkedFiles, wl.newFiles, wl.wlSpecInfo, rfl⟩

theorem storageDeleteFile_eq (wl : Workload τ) (hash : Bytes) :
    ∃ checked new info, storageDeleteFile wl hash =
      { wl with checkedFiles := checked, newFiles := new, wlSpecInfo := info } := by
  unfold storageDeleteFile
  split
  · obtain ⟨info, h⟩ := dropSpec_eq _ _ _
    exact ⟨_, _, info, h⟩
  · split
    · obtain ⟨info, h⟩ := dropSpec_eq _ _ _
      exact ⟨_, _, info, h⟩
    · exact ⟨wl.checkedFiles, wl.newFiles, wl.wlSpecInfo, rfl⟩

end CrustSworker.Storage

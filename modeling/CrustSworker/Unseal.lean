import CrustSworker.Persistence
import CrustSworker.Seal

/-!
# Unsealing a file

`storage_unseal_file` takes the files of a directory in the order they are listed, replaces each
by its plain text under the name the plain text gives it, and at the end renames the directory to
the original root hash, which it reads from the meta record of the sealed one. The buffer for the
plain texts is the same for all files and only grows. `none` is an abort: a fault in the JSON
loader, or the buffer is read while it is still a null pointer.
-/

namespace CrustSworker.Unseal

open Persistence

def malwareDataBlock : CrustStatus := .host 0x4022
def storageUpdateFileFailed : CrustStatus := .host 0x8003
def storageUnsealFileFailed : CrustStatus := .host 0x8004

def slash : UInt8 := 47

def findLastOf (c : UInt8) : Bytes → Option Nat
  | [] => none
  | b :: s =>
    match findLastOf c s with
    | some i => some (i + 1)
    | none => if b = c then some 0 else none

def upDir (dir : Bytes) : Bytes := dir.take ((findLastOf slash dir).getD dir.length)

def lastPart (dir : Bytes) : Bytes :=
  match findLastOf slash dir with
  | some i => dir.drop (i + 1)
  | none => dir

/-- What is behind the number of a block file is not read. -/
def tagOf (file : Bytes) : Bytes :=
  file.take ((TextSearch.find (str "_") file 0).getD file.length)

structure FileEnv where
  getStorageFile : CrustStatus × Option Bytes
  mallocSealed : Bool
  reallocData : Bool
  replaceFile : CrustStatus
  mallocHexHash : Bool

structure Replaced where
  oldPath : Bytes
  newPath : Bytes
  data : Bytes

structure LoopEnd where
  status : CrustStatus
  finished : Bool
  replaced : List Replaced

section
variable (sha256 : Bytes → Hash) (mem : Mem) (u : Unsealing)

/-- `memcmp` with the tag of the enclave's own data, in a buffer of the given length. -/
def isPrivate (data : Bytes) (bufferLen : Nat) : Bool :=
  (mem.read (data ++ List.replicate (bufferLen - data.length) 0) sworkerPrivateTag.length).val ==
    sworkerPrivateTag

def unsealedPath (served : Bool) (dir file data : Bytes) : Bytes :=
  dir ++ str "/" ++ tagOf file ++ str "_" ++ hexstringSafeWith served (sgxSha256Msg sha256 data).val

def unsealFiles (dir : Bytes) (env : Nat → FileEnv) :
    List Bytes → Nat → Nat → Option LoopEnd
  | [], _, _ => some ⟨.success, true, []⟩
  | file :: files, i, bufferLen =>
    let path := dir ++ str "/" ++ file
    match (env i).getStorageFile with
    | (status, none) => some ⟨status, false, []⟩
    | (status, some sealed) =>
      if status ≠ .success then some ⟨status, false, []⟩
      else if ¬ encMalloc (env i).mallocSealed sealed.length then some ⟨.mallocFailed, false, []⟩
      else
        let len := u.encryptTxtLen sealed
        if len > bufferLen ∧ ¬ encMalloc (env i).reallocData len then
          some ⟨.mallocFailed, false, []⟩
        else
          let bufferLen := max bufferLen len
          match u.unsealData sealed with
          | none => some ⟨unsealDataFailed, false, []⟩
          | some data =>
            if bufferLen = 0 then none
            else if isPrivate mem data bufferLen then some ⟨malwareDataBlock, false, []⟩
            else if (env i).replaceFile ≠ .success then some ⟨storageUpdateFileFailed, false, []⟩
            else
              (unsealFiles dir env files (i + 1) bufferLen).map fun r =>
                { r with
                  replaced := ⟨path, unsealedPath sha256 (env i).mallocHexHash dir file data, data⟩
                    :: r.replaced }

structure UnsealEnv where
  /-- What `persist_get_unsafe` answers for a key. -/
  persistGet : Bytes → CrustStatus × Option Bytes
  file : Nat → FileEnv
  renameDir : CrustStatus

structure UnsealResult where
  status : CrustStatus
  newPath : Option Bytes
  replaced : List Replaced

def metaKey (dir : Bytes) : Bytes := lastPart dir ++ str "_meta"

def newDir (dir : Bytes) (metaJson : JSON) : Bytes :=
  upDir dir ++ str "/" ++ (metaJson.get fileOldHash).toStr

def storageUnsealFile (env : UnsealEnv) (files : List Bytes) (dir : Bytes) : Option UnsealResult :=
  match env.persistGet (metaKey dir) with
  | (_, none) => some ⟨storageUnsealFileFailed, none, []⟩
  | (status, some treeMeta) =>
    if status ≠ .success then some ⟨storageUnsealFileFailed, none, []⟩
    else
      match JsonParse.load mem treeMeta with
      | .error _ => none
      | .ok metaJson =>
        match unsealFiles sha256 mem u dir env.file files 0 0 with
        | none => none
        | some r =>
          if r.finished then some ⟨env.renameDir, some (newDir dir metaJson), r.replaced⟩
          else some ⟨r.status, none, r.replaced⟩

end

end CrustSworker.Unseal

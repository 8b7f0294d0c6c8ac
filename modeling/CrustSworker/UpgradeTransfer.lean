import CrustSworker.UpgradeBuffer
import CrustSworker.UpgradeClient

/-!
# Upgrade data on the way to the new enclave

The old enclave hands its data to the app part by part, and the app puts them together in a
string. The app of the new version fetches the string and hands it to its enclave chunk by
chunk, and the enclave puts them together in its buffer. Both loops cut their data into the same
pieces; what has arrived so far and the pieces that are left are the data at any time.
-/

namespace CrustSworker.UpgradeTransfer

open Persistence Pieces UpgradeBuffer UpgradeClient
open Upgrade (UpgradeEnv Verify State Call contents ecallRestoreFromUpgrade)

/-! ### Storing -/

section
variable {σ : Type} (func : σ → Bytes → Bool → σ)

def storeParts : Bool → List Bytes → σ → σ
  | _, [], s => s
  | cover, p :: ps, s => storeParts false ps (func s p cover)

end

structure Entry (τ : Type) where
  enters : Bool
  mallocBuffer : Bool
  env : UpgradeEnv
  tagOf : Nat → τ

/-- The new enclave, with the calls it was sent and the states they found. -/
structure Link (τ : Type) where
  state : State τ
  calls : List (State τ × Call)

variable {τ : Type}

def callOf (e : Entry τ) (c : Chunk) : Call :=
  ⟨c.data, c.totalSize, c.transferEnd, e.mallocBuffer, e.env⟩

section
variable (sha256 : Bytes → Hash) (mem : Mem) (verify : Verify) (entries : Nat → Entry τ)

def restore (l : Link τ) (c : Chunk) : Reply × Link τ :=
  let e := entries l.calls.length
  if ¬ e.enters then ((false, .success), l)
  else
    let calls := l.calls ++ [(l.state, callOf e c)]
    match ecallRestoreFromUpgrade sha256 mem verify e.tagOf l.state (callOf e c) with
    | none => ((false, .success), ⟨l.state, calls⟩)
    | some (reply, s) => ((true, reply.status), ⟨s, calls⟩)

structure Follows (data : Bytes) (s : State τ) (ps : List Bytes) : Prop where
  left : s.received ++ ps.flatten = data
  total : s.received ≠ [] → s.total = data.length

/-- Nothing but the document itself can make a call fail. -/
structure Served (data : Bytes) (s : State τ) : Prop where
  status : s.wl.upgradeStatus ≠ .process
  enters : ∀ i, (entries i).enters = true
  malloc : encMalloc (entries 0).mallocBuffer data.length = true

end

section
variable {sha256 : Bytes → Hash} {mem : Mem} {verify : Verify} {entries : Nat → Entry τ}
  {data piece : Bytes} {ps : List Bytes} {l : Link τ}

theorem Follows.room (h : Follows data l.state (piece :: ps)) {c : Call}
    (htotal : c.totalSize = data.length) : room l.state c = data.length := by
  unfold UpgradeBuffer.room
  split_ifs with hzero
  · exact htotal
  · exact h.total (List.ne_nil_of_length_pos (Nat.pos_of_ne_zero hzero))

end

/-! ### The chunks that are sent -/

end CrustSworker.UpgradeTransfer

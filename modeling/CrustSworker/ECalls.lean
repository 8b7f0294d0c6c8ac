import CrustSworker.Parameter
import Mathlib.Logic.Function.Basic

/-!
# The task scheduler in front of the enclave

`try_get_enclave` and `free_enclave` of the app, for any number of threads. Every access
to a shared table is a step of its own, and so is a section under `g_task_mutex`: a thread
takes the lock, and with its next step does the whole section and releases it. A `++` or `--`
outside the lock is two accesses, one that reads the counter and one that writes it. In between
the steps of one thread those of the others happen in any order.

A thread that is inside an ecall may issue another one from an ocall, so a thread is a
stack of wrapper calls.
-/

namespace CrustSworker.ECalls

inductive EcallName where
  | restoreMetadata
  | genKeyPair
  | cmpChainAccountId
  | getQuoteReport
  | verifyAndUploadIdentity
  | genSgxMeasurement
  | mainLoop
  | genAndUploadWorkReport
  | confirmFile
  | deleteFile
  | genUpgradeData
  | restoreFromUpgrade
  | enableUpgrade
  | disableUpgrade
  | sealFile
  | unsealFile
  | srdDecrease
  | srdUpdateMetadata
  | srdSetChange
  | srdIncrease
  | idGetInfo
  | getWorkload
  deriving DecidableEq, Repr

def encMaxThreadNum : Int := 15
def encReservedThreadNum : Int := 1
def encPrioTimeoutThreshold : Nat := 1
def encPermanentTaskNum : Int := 1
def encHighestPriority : Nat := 0
def encTaskTimeout : Nat := 30

def taskPriority : EcallName → Nat
  | .sealFile | .unsealFile | .srdDecrease | .srdUpdateMetadata | .srdSetChange => 1
  | .srdIncrease => 2
  | .idGetInfo | .getWorkload => 3
  | _ => 0

def blockTasks : EcallName → List EcallName
  | .srdIncrease => [.sealFile, .unsealFile, .genAndUploadWorkReport, .confirmFile]
  | .confirmFile => [.genAndUploadWorkReport]
  | .deleteFile => [.genAndUploadWorkReport]
  | _ => []

abbrev Counters := EcallName → Option Int

/-- `m[name] += d`, from zero when there is no entry yet. -/
def Counters.add (m : Counters) (name : EcallName) (d : Int) : Counters :=
  Function.update m name (some ((m name).getD 0 + d))

def Counters.set (m : Counters) (name : EcallName) (v : Int) : Counters :=
  Function.update m name (some v)

def Counters.single (name : EcallName) : Counters := Function.update (fun _ => none) name (some 1)

structure Tables (T : Type) where
  runningNum : Int
  running : T → Option Counters
  waiting : Nat → Int
  invoked : Counters
  mutex : Option T

variable {T : Type} [DecidableEq T]

def Tables.empty : Tables T := ⟨0, fun _ => none, fun _ => 0, fun _ => none, none⟩

def higherPrioWaiting (t : Tables T) : Nat → Int
  | 0 => 0
  | p + 1 => t.waiting p + higherPrioWaiting t p

def hasRoom (t : Tables T) (prio : Nat) : Bool :=
  ¬ (t.runningNum ≥ encMaxThreadNum
    ∨ (prio > encHighestPriority ∧ encMaxThreadNum - t.runningNum ≤ encReservedThreadNum)
    ∨ higherPrioWaiting t prio - encPermanentTaskNum > 0)

/-! ### `try_get_enclave` -/

/-- Where a call stands; `block` has the blocking tasks it still has to look at, and a write of a
counter has what the read before it has seen. -/
inductive Pc where
  | queue
  | queueWrite (seen : Int)
  | count
  | create
  | invoke
  | invokeWrite (seen : Int)
  | block (rest : List EcallName)
  | slot
  | tryLock
  | critical
  | loop
  | dequeue
  | dequeueWrite (seen : Int)
  | settle
  | settleWrite (seen : Int)
  | returned
  deriving DecidableEq, Repr

structure Call where
  name : EcallName
  pc : Pc
  timeout : Nat
  status : SgxStatus
  deriving DecidableEq, Repr

def Call.start (name : EcallName) : Call := ⟨name, .queue, 0, .success⟩

def Call.prio (c : Call) : Nat := taskPriority c.name

def Call.goto (c : Call) (pc : Pc) : Call := { c with pc := pc }

def register (t : Tables T) (tid : T) (name : EcallName) : Tables T :=
  match t.running tid with
  | none =>
    { t with
      running := Function.update t.running tid (some (Counters.single name))
      runningNum := t.runningNum + 1 }
  | some info => { t with running := Function.update t.running tid (some (info.add name 1)) }

def callStep (t : Tables T) (tid : T) (c : Call) : Tables T × Call :=
  match c.pc with
  | .queue => (t, c.goto (.queueWrite (t.waiting c.prio)))
  | .queueWrite seen =>
    ({ t with waiting := Function.update t.waiting c.prio (seen + 1) }, c.goto .count)
  | .count => (t, c.goto (if (t.invoked c.name).isNone then .create else .invoke))
  | .create => ({ t with invoked := t.invoked.set c.name 0 }, c.goto .invoke)
  -- Looking an entry up creates it.
  | .invoke =>
    ({ t with invoked := t.invoked.add c.name 0 }, c.goto (.invokeWrite ((t.invoked c.name).getD 0)))
  | .invokeWrite seen =>
    ({ t with invoked := t.invoked.set c.name (seen + 1) }, c.goto (.block (blockTasks c.name)))
  | .block [] => (t, c.goto .slot)
  | .block (b :: rest) =>
    let t := { t with invoked := t.invoked.add b 0 }
    if (t.invoked b).getD 0 > 0 then (t, { c with pc := .loop, status := .deviceBusy })
    else (t, c.goto (.block rest))
  | .slot => (t, c.goto (if t.runningNum < encMaxThreadNum then .tryLock else .loop))
  | .tryLock =>
    if t.mutex.isSome then (t, c.goto .loop) else ({ t with mutex := some tid }, c.goto .critical)
  | .critical =>
    let t := { t with mutex := none }
    if hasRoom t c.prio then (register t tid c.name, c.goto .dequeue) else (t, c.goto .loop)
  | .loop =>
    if c.prio > encPrioTimeoutThreshold then
      if c.timeout + 1 ≥ encTaskTimeout then
        ({ t with running := Function.update t.running tid none },
          { c with pc := .dequeue, timeout := c.timeout + 1, status := .serviceTimeout })
      else (t, { c with pc := .block (blockTasks c.name), timeout := c.timeout + 1 })
    else (t, c.goto (.block (blockTasks c.name)))
  | .dequeue => (t, c.goto (.dequeueWrite (t.waiting c.prio)))
  | .dequeueWrite seen =>
    ({ t with waiting := Function.update t.waiting c.prio (seen - 1) }, c.goto .settle)
  | .settle =>
    if c.status ≠ .success then
      ({ t with invoked := t.invoked.add c.name 0 },
        c.goto (.settleWrite ((t.invoked c.name).getD 0)))
    else (t, c.goto .returned)
  | .settleWrite seen => ({ t with invoked := t.invoked.set c.name (seen - 1) }, c.goto .returned)
  | .returned => (t, c)

/-! ### Threads -/

/-- A wrapper call: in `try_get_enclave`, inside the enclave, or in `free_enclave`, before and after
it has read its counter. -/
inductive Frame where
  | calling (c : Call)
  | inside (name : EcallName)
  | freeing (name : EcallName)
  | freeingWrite (name : EcallName) (seen : Int)
  deriving DecidableEq, Repr

structure System (T : Type) where
  tables : Tables T
  stack : T → List Frame

def System.setStack (s : System T) (tid : T) (frames : List Frame) (t : Tables T) : System T :=
  ⟨t, Function.update s.stack tid frames⟩

/-- `start` enters a wrapper, `advance` is a step of `try_get_enclave`, `proceed` is the
wrapper's test of its result, `leave` and `freed` are the two parts of `free_enclave`, the second
one a read and a write. -/
inductive Move where
  | start (name : EcallName)
  | advance
  | proceed
  | leave
  | freed
  deriving DecidableEq, Repr

def freeEnclave (t : Tables T) (tid : T) : Tables T :=
  { t with running := Function.update t.running tid none, runningNum := t.runningNum - 1 }

def step (s : System T) (a : T × Move) : Option (System T) :=
  match a.2, s.stack a.1 with
  | .start name, [] => some (s.setStack a.1 [.calling (.start name)] s.tables)
  | .start name, .inside n :: fs =>
    some (s.setStack a.1 (.calling (.start name) :: .inside n :: fs) s.tables)
  | .advance, .calling c :: fs =>
    let r := callStep s.tables a.1 c
    some (s.setStack a.1 (.calling r.2 :: fs) r.1)
  | .proceed, .calling c :: fs =>
    if c.pc ≠ .returned then none
    else if c.status = .success then some (s.setStack a.1 (.inside c.name :: fs) s.tables)
    else some (s.setStack a.1 fs s.tables)
  | .leave, .inside name :: fs =>
    if s.tables.mutex.isSome then none
    else some (s.setStack a.1 (.freeing name :: fs) (freeEnclave s.tables a.1))
  | .freed, .freeing name :: fs =>
    some (s.setStack a.1 (.freeingWrite name ((s.tables.invoked name).getD 0) :: fs)
      { s.tables with invoked := s.tables.invoked.add name 0 })
  | .freed, .freeingWrite name seen :: fs =>
    some (s.setStack a.1 fs { s.tables with invoked := s.tables.invoked.set name (seen - 1) })
  | _, _ => none

end CrustSworker.ECalls

import CrustSworker.Frozen

/-!
# Leaving the old node

The app's side of an upgrade: the three HTTP requests, the check loop of `process_run` with its
timeout, and the enclave below. Several threads serve the requests, so a test and what follows
it are steps of their own, and so are an ecall and what the app does on its return.
`/upgrade/complete` is answered in any status but exit; with success it deletes the metadata. The
main theorem is about every run in which success is announced after the data was fetched in the
status complete, nothing else sets the status before that request is done, and nothing has been
written to the enclave since its lists were serialized.
-/

namespace CrustSworker.UpgradeExit

open Surface Upgrade UpgradeReport

variable {τ : Type}

inductive UpgradeStatus where
  | none
  | stopWorkreport
  | process
  | ended
  | complete
  | exit
  deriving DecidableEq, Repr

/-- Where `process_run` stands in a round of its check loop. In `ending`, `genReady` and
`timedOut` a test of the status has passed, in `generating` it is inside
`Ecall_gen_upgrade_data`. In `released` that call has stored these texts in the app and released
its lock, as the `k`-th that waits to set the status of the enclave. -/
inductive TickPc where
  | endCheck
  | ending
  | genCheck
  | genReady
  | generating
  | released (texts : Serialized) (k : Nat)
  | succeeded
  | exitCheck
  | tryout
  | timedOut
  deriving DecidableEq

def TickPc.generates : TickPc → Bool
  | .ending | .genReady | .generating | .released _ _ | .succeeded => true
  | _ => false

def checkInterval : Int := 15
def upgradeTimeout : Int := 2 * 300 * 6

/-- Counted are the requests and calls that stand behind a step: `admitted` the start requests
that have passed their test, `enabled` those for which `Ecall_enable_upgrade` has returned with
success, `fetching` the metadata requests that have passed their test, `exiting` the complete
requests that have deleted the metadata, `looking` the calls of `set_upgrade_status` that still
have to look for `UPGRADE_STATUS_NONE` and `disabling` those that have seen it. `starting` are
the start requests that wait for `Ecall_enable_upgrade`, with their block heights, and
`completing` the complete requests that have been let in, with their `success`. `served` is what
`/upgrade/metadata` has handed out, as long as nothing has set the status since. -/
structure State (τ : Type) where
  enclave : Surface.State τ
  status : UpgradeStatus
  upgradeData : Bytes
  tick : TickPc
  tryout : Int
  admitted : Nat
  starting : List UInt64
  enabled : Nat
  fetching : Nat
  completing : List Bool
  exiting : Nat
  looking : Nat
  disabling : Nat
  served : Option Bytes
  discarded : Bool
  alive : Bool

def State.init (enclave : Surface.State τ) : State τ where
  enclave := enclave
  status := .none
  upgradeData := []
  tick := .endCheck
  tryout := upgradeTimeout / checkInterval
  admitted := 0
  starting := []
  enabled := 0
  fetching := 0
  completing := []
  exiting := 0
  looking := 0
  disabling := 0
  served := none
  discarded := false
  alive := true

def State.setUpgradeStatus (s : State τ) (status : UpgradeStatus) : State τ :=
  if s.status = status then s
  else
    { s with
      status := status
      served := none
      looking := s.looking + 1 }

/-- What the rest of the app and the chain answer in one step of the check loop; `waiting` is
the number of upgrade ecalls that have not entered the enclave yet, and what lost updates of
`g_invoked_ecalls_um` add to it or take from it. -/
structure TickEnv where
  waiting : Int
  header : Option UInt64
  invoked : Bool
  gen : GenDataEnv

def isBlockTask : Ecall τ → Bool
  | .sealFile _ _ _ _ | .srdDecrease _ _ | .srdIncrease _ _ | .confirmFile _ | .deleteFile _ => true
  | .silent name _ => decide (name = .unsealFile)
  | _ => false

def getUpgradeEcallsNum (env : TickEnv) (e : Surface.State τ) : Int :=
  env.waiting + e.inside.countP isBlockTask

def handOverJob (e : Surface.State τ) : Bool :=
  e.job.any fun j =>
    match j.call.asker with
    | .handOver => true
    | _ => false

def nextPart (env : GenDataEnv) (e : Surface.State τ) : Option (Surface.Move τ) :=
  if handOverJob e then some .report
  else
    match e.phase with
    | .waiting _ => some (.upload env)
    | .uploaded _ => some .serializeSrd
    | .srdDone _ _ => some (.serializeFile env)
    | .filesDone _ _ _ => some (.sign env)
    | _ => none

/-- The steps of the ecalls that only the app's own upgrade code issues. -/
def isUpgradeMove (e : Surface.State τ) : Surface.Move τ → Bool
  | .enter (.enableUpgrade _) | .enter .disableUpgrade | .setProcess | .genReport _ _ | .upload _
  | .serializeSrd | .serializeFile _ | .sign _ | .genDone _ => true
  | .report => handOverJob e
  | _ => false

inductive Move (τ : Type) where
  | start
  | stop (header : Option UInt64)
  | enable (k : Nat) (invoked : Bool)
  | enabled
  | process
  | metadata
  | fetch
  | complete (success : Bool)
  | answer (k : Nat)
  | exit
  | look
  | disable
  | tick (env : TickEnv)
  | enclave (m : Surface.Move τ)

section
variable (sha256 : Bytes → Hash) (mem : Mem) (verify : Verify) (floatText : Bytes → Bytes → Bytes)
  (usable : Nat → Nat)

def returned (s : State τ) (e : Surface.State τ) : State τ :=
  match e.ending[s.enclave.ending.length]? with
  | some (texts, data) =>
    { s with
      enclave := e
      upgradeData := data
      tick := .released texts s.enclave.ending.length }
  | none =>
    { s with
      enclave := e
      tick := if handOverJob e || !isIdle e.phase then .generating else .exitCheck }

def tickStep (env : TickEnv) (s : State τ) : Option (State τ) :=
  match s.tick with
  | .endCheck =>
    if s.status = .process ∧ getUpgradeEcallsNum env s.enclave = 0 then
      some { s with tick := .ending }
    else some { s with tick := .genCheck }
  | .ending => some ({ s with tick := .genCheck }.setUpgradeStatus .ended)
  | .genCheck =>
    if s.status = .ended then some { s with tick := .genReady }
    else some { s with tick := .exitCheck }
  | .genReady =>
    match env.header, env.invoked with
    | some height, true =>
      (Surface.step sha256 mem verify floatText usable s.enclave (.genReport env.gen height)).map
        (returned s)
    | _, _ => some { s with tick := .exitCheck }
  | .generating =>
    match nextPart env.gen s.enclave with
    | none => none
    | some m => (Surface.step sha256 mem verify floatText usable s.enclave m).map (returned s)
  | .released _ k =>
    (Surface.step sha256 mem verify floatText usable s.enclave (.genDone k)).map fun e =>
      { s with enclave := e, tick := .succeeded }
  | .succeeded => some ({ s with tick := .exitCheck }.setUpgradeStatus .complete)
  | .exitCheck =>
    if s.status = .exit then some { s with alive := false } else some { s with tick := .tryout }
  | .tryout =>
    if s.status = .none then some { s with tick := .endCheck }
    else if s.tryout - 1 < 0 then some { s with tick := .timedOut, tryout := s.tryout - 1 }
    else some { s with tick := .endCheck, tryout := s.tryout - 1 }
  | .timedOut =>
    some ({ s with
      tick := .endCheck
      tryout := upgradeTimeout / checkInterval }.setUpgradeStatus .none)

def step (s : State τ) (m : Move τ) : Option (State τ) :=
  if ¬ s.alive then none
  else
    match m with
    | .start =>
      if s.status ≠ .none ∧ s.status ≠ .stopWorkreport then some s
      else some { s with admitted := s.admitted + 1 }
    | .stop header =>
      if s.admitted = 0 then none
      else
        some ({ s with
          admitted := s.admitted - 1
          starting := s.starting ++ header.toList }.setUpgradeStatus .stopWorkreport)
    | .enable k invoked =>
      match s.starting[k]? with
      | none => none
      | some height =>
        let s := { s with starting := s.starting.eraseIdx k }
        if ¬ invoked then some s
        else
          (Surface.body sha256 mem verify s.enclave (.enableUpgrade height)).map fun e =>
            { s with enclave := e }
    | .enabled =>
      (Surface.step sha256 mem verify floatText usable s.enclave .setProcess).map fun e =>
        { s with enclave := e, enabled := s.enabled + 1 }
    | .process =>
      if s.enabled = 0 then none
      else some ({ s with enabled := s.enabled - 1 }.setUpgradeStatus .process)
    | .metadata =>
      some (if s.status = .complete then { s with fetching := s.fetching + 1 } else s)
    | .fetch =>
      if s.fetching = 0 then none
      else
        some
          { s with
            fetching := s.fetching - 1
            served := if s.status = .complete then some s.upgradeData else s.served }
    | .complete success =>
      -- The handler turns every request away in the status exit; no other status is looked at.
      if s.status = .exit then some s else some { s with completing := s.completing ++ [success] }
    | .answer k =>
      match s.completing[k]? with
      | none => none
      | some success =>
        let s := { s with completing := s.completing.eraseIdx k }
        if success then some { s with discarded := true, exiting := s.exiting + 1 }
        else some (s.setUpgradeStatus .none)
    | .exit =>
      if s.exiting = 0 then none
      else some ({ s with exiting := s.exiting - 1 }.setUpgradeStatus .exit)
    | .look =>
      if s.looking = 0 then none
      else
        some
          { s with
            looking := s.looking - 1
            disabling := if s.status = .none then s.disabling + 1 else s.disabling }
    | .disable =>
      if s.disabling = 0 then none
      else
        (Surface.body sha256 mem verify s.enclave .disableUpgrade).map fun e =>
          { s with enclave := e, disabling := s.disabling - 1 }
    | .tick env => tickStep sha256 mem verify floatText usable env s
    | .enclave m =>
      if isUpgradeMove s.enclave m then none
      else
        (Surface.step sha256 mem verify floatText usable s.enclave m).map fun e =>
          { s with enclave := e }

end

/-! ### The condition -/

/-- The data is complete, as far as the app knows. -/
def handedOver (s : State τ) : Bool := decide (s.status = .complete) || decide (s.tick = .succeeded)

/-- The complete requests with success that are being handled. -/
def successes (s : State τ) : Nat := s.completing.count true + s.exiting

/-- Nothing is under way that could still write, and the lists are those that were
serialized; files that are not merged are in no document. -/
def undisturbed (mem : Mem) (floatText : Bytes → Bytes → Bytes) (texts : Serialized)
    (e : Surface.State τ) : Bool :=
  calm e && e.wl.newFiles.isEmpty && decide (texts.srd = srdText mem e.wl.srdPath2hashs) &&
    decide (texts.files = filesText floatText e.wl.checkedFiles)

/-- A request with success is let in when the data has been fetched and neither a request nor the
check loop has set the status since, and as the only one. Until it is done no other request and no
timeout sets the status. The lists are those that were serialized when the hand-over returns, and
the enclave is left alone from then on. -/
def orderly (sha256 : Bytes → Hash) (mem : Mem) (floatText : Bytes → Bytes → Bytes) (s : State τ) :
    Move τ → Bool
  | .complete true =>
    decide (s.status = .exit) || s.served.isSome && decide (successes s = 0)
  | .answer k => decide (s.completing[k]? = some true) || decide (successes s = 0)
  | .stop _ | .process => decide (successes s = 0)
  | .enable k invoked =>
    match s.starting[k]? with
    | some height =>
      !handedOver s || !invoked || spares sha256 mem s.enclave (.enableUpgrade height)
    | none => true
  | .disable => !handedOver s
  | .tick _ =>
    match s.tick with
    | .released texts _ => undisturbed mem floatText texts s.enclave
    | .timedOut => decide (successes s = 0)
    | _ => true
  | .enclave m => !handedOver s || held sha256 mem s.enclave m
  | _ => true

def Contains (mem : Mem) (floatText : Bytes → Bytes → Bytes) (data : Bytes) (wl : Workload τ) :
    Prop :=
  wl.newFiles = [] ∧ ∃ key height hash srdRoot filesRoot sig,
    data = upgradeText key height hash (srdText mem wl.srdPath2hashs)
      (filesText floatText wl.checkedFiles) srdRoot filesRoot sig

theorem Contains.of_same {mem : Mem} {floatText : Bytes → Bytes → Bytes} {data : Bytes}
    {wl wl' : Workload τ} (h : Contains mem floatText data wl) (hs : SameLists wl wl') :
    Contains mem floatText data wl' := by
  rw [Contains, hs.new, hs.srd, hs.checked]
  exact h

/-! ### The invariant -/

def Holds (data : Bytes) (texts : Serialized) : Prop :=
  ∃ key srdRoot filesRoot sig,
    data = upgradeText key texts.height texts.hash texts.srd texts.files srdRoot filesRoot sig

structure Inv (mem : Mem) (floatText : Bytes → Bytes → Bytes) (s : State τ) : Prop where
  generating : s.tick.generates = true → s.status ≠ .complete
  served : ∀ data, s.served = some data → s.status = .complete ∧ data = s.upgradeData
  announced : successes s ≠ 0 → s.served.isSome = true
  one : successes s ≤ 1
  released : ∀ texts k, s.tick = .released texts k → Holds s.upgradeData texts
  kept : handedOver s = true →
    ∃ e₀, Frozen e₀ s.enclave ∧ Contains mem floatText s.upgradeData e₀.wl

section
variable {mem : Mem} {floatText : Bytes → Bytes → Bytes} {s s' : State τ}

theorem inv_init (e : Surface.State τ) : Inv mem floatText (State.init e) where
  generating := fun h => by cases h
  served := fun _ h => by cases h
  announced := fun h => absurd rfl h
  one := Nat.zero_le 1
  released := fun _ _ h => by cases h
  kept := fun h => by cases h

theorem handedOver_iff : handedOver s = true ↔ s.status = .complete ∨ s.tick = .succeeded := by
  simp [handedOver]

theorem Inv.complete (h : Inv mem floatText s) (hn : successes s ≠ 0) : s.status = .complete := by
  obtain ⟨data, hdata⟩ := Option.isSome_iff_exists.mp (h.announced hn)
  exact (h.served data hdata).1

theorem Inv.count (h : Inv mem floatText s) (he : s'.enclave = s.enclave)
    (hst : s'.status = s.status) (hd : s'.upgradeData = s.upgradeData) (ht : s'.tick = s.tick)
    (hserved : s'.served = s.served) (hn : successes s' ≤ successes s) : Inv mem floatText s' where
  generating := by
    rw [ht, hst]
    exact h.generating
  served := by
    rw [hst, hserved, hd]
    exact h.served
  announced := fun hne => by
    rw [hserved]
    exact h.announced (by omega)
  one := hn.trans h.one
  released := by
    rw [ht, hd]
    exact h.released
  kept := by
    rw [handedOver, hst, ht, he, hd]
    exact h.kept

theorem Inv.setUpgradeStatus (h : Inv mem floatText s) (hn : successes s = 0)
    {status : UpgradeStatus} (hne : status ≠ .complete) :
    Inv mem floatText (s.setUpgradeStatus status) := by
  unfold State.setUpgradeStatus
  split_ifs
  · exact h
  · refine ⟨fun _ => hne, fun _ hd => (by cases hd), fun hs => absurd hn hs, h.one, h.released,
      fun ho => h.kept ?_⟩
    rw [handedOver_iff] at ho ⊢
    exact .inr (ho.resolve_left hne)

theorem Inv.goto (h : Inv mem floatText s) {tick : TickPc} {tryout : Int}
    (hg : tick.generates = false) :
    Inv mem floatText { s with tick := tick, tryout := tryout } where
  generating := fun ht => absurd (hg.symm.trans ht) (by decide)
  served := h.served
  announced := h.announced
  one := h.one
  released := fun texts k ht => by
    rw [show tick = .released texts k from ht] at hg
    cases hg
  kept := fun ho => by
    refine h.kept ?_
    rw [handedOver_iff] at ho ⊢
    refine .inl (ho.resolve_right fun ht => ?_)
    rw [show tick = .succeeded from ht] at hg
    cases hg

theorem Inv.outside (h : Inv mem floatText s) (hne : s.status ≠ .complete)
    (hst : s'.status = s.status) (hserved : s'.served = s.served)
    (hn : successes s' = successes s) (ht : s'.tick ≠ .succeeded)
    (hr : ∀ texts k, s'.tick = .released texts k → Holds s'.upgradeData texts) :
    Inv mem floatText s' where
  generating := fun _ => hst ▸ hne
  served := fun data hd => absurd (h.served data (hserved ▸ hd)).1 hne
  announced := fun hs => absurd (h.complete (hn ▸ hs)) hne
  one := hn.trans_le h.one
  released := hr
  kept := fun ho => by
    rw [handedOver_iff, hst] at ho
    exact absurd (ho.resolve_left hne) ht

theorem Inv.enclave (h : Inv mem floatText s) {e : Surface.State τ}
    (hk : handedOver s = true → ∀ e₀, Frozen e₀ s.enclave → Frozen e₀ e) :
    Inv mem floatText { s with enclave := e } where
  generating := h.generating
  served := h.served
  announced := h.announced
  one := h.one
  released := h.released
  kept := fun ho => by
    obtain ⟨e₀, hf, hc⟩ := h.kept ho
    exact ⟨e₀, hk ho e₀ hf, hc⟩

theorem Inv.fetch (h : Inv mem floatText s) {n : Nat} :
    Inv mem floatText
      { s with
        fetching := n
        served := if s.status = .complete then some s.upgradeData else s.served } where
  generating := h.generating
  served := fun data hd => by
    dsimp only at hd
    split_ifs at hd with hc
    · exact ⟨hc, (Option.some.inj hd).symm⟩
    · exact h.served data hd
  announced := fun hn => by
    dsimp only
    rw [if_pos (h.complete hn)]
    rfl
  one := h.one
  released := h.released
  kept := h.kept

theorem Inv.letIn (h : Inv mem floatText s) (hs : s.served.isSome = true) (hn : successes s = 0) :
    Inv mem floatText { s with completing := s.completing ++ [true] } where
  generating := h.generating
  served := h.served
  announced := fun _ => hs
  one := by
    have hone : successes { s with completing := s.completing ++ [true] } = successes s + 1 := by
      simp only [successes, List.count_append, List.count_singleton_self]
      omega
    omega
  released := h.released
  kept := h.kept

theorem Inv.succeed (h : Inv mem floatText s) (ht : s.tick = .succeeded) :
    Inv mem floatText ({ s with tick := .exitCheck }.setUpgradeStatus .complete) := by
  have hne : s.status ≠ .complete := h.generating (by rw [ht]; rfl)
  have hn : successes s = 0 := by
    by_contra hn
    exact hne (h.complete hn)
  rw [State.setUpgradeStatus, if_neg hne]
  refine ⟨fun hg => (by cases hg), fun _ hd => (by cases hd), fun hs => absurd hn hs, h.one,
    fun _ _ hr => (by cases hr), fun _ => h.kept (handedOver_iff.mpr (.inr ht))⟩

end

/-! ### The check loop -/

section
variable {sha256 : Bytes → Hash} {mem : Mem} {verify : Verify} {floatText : Bytes → Bytes → Bytes}
  {usable : Nat → Nat} {s s' : State τ} {env : TickEnv}

theorem report_ending {e e' : Surface.State τ}
    (h : Surface.step sha256 mem verify floatText usable e .report = some e') :
    e'.ending = e.ending := by
  simp only [Surface.step] at h
  split at h
  · cases h
  unfold reportStep at h
  split at h
  · split_ifs at h
    · cases h
      rfl
    · cases h
      rfl
  · cases h
    rfl
  · cases h
    rfl
  · cases h
    rfl
  · obtain ⟨r, -, rfl⟩ := Option.map_eq_some_iff.mp h
    rfl
  · cases h
    rfl
  · cases h
    rfl
  · cases h
    rfl
  · cases h
    rfl
  · split at h
    · cases h
      rfl
    · cases h
      rfl
  · split at h
    · cases h
    · cases h
      rfl
    · cases h
      rfl

theorem genReport_ending {e e' : Surface.State τ} {genv : GenDataEnv} {height : UInt64}
    (h : Surface.step sha256 mem verify floatText usable e (.genReport genv height) = some e') :
    e'.ending = e.ending := by
  simp only [Surface.step] at h
  split_ifs at h
  cases h
  unfold genStep
  split
  · rfl
  · rfl

theorem part_ending {e e' : Surface.State τ} {genv : GenDataEnv} {m : Surface.Move τ}
    {texts : Serialized} {data : Bytes} (hm : nextPart genv e = some m)
    (h : Surface.step sha256 mem verify floatText usable e m = some e')
    (hd : e'.ending[e.ending.length]? = some (texts, data)) : Holds data texts := by
  have hsame : e'.ending ≠ e.ending := by
    intro heq
    rw [heq, List.getElem?_eq_none le_rfl] at hd
    cases hd
  unfold nextPart at hm
  split_ifs at hm
  · cases hm
    exact absurd (report_ending h) hsame
  split at hm
  · rename_i last hp
    cases hm
    simp only [Surface.step, hp] at h
    split at h
    · cases h
      exact absurd rfl hsame
    · cases h
      exact absurd rfl hsame
  · rename_i last hp
    cases hm
    simp only [Surface.step, hp] at h
    cases h
    exact absurd rfl hsame
  · rename_i last srd hp
    cases hm
    simp only [Surface.step, hp] at h
    split at h
    · cases h
    · cases h
      exact absurd rfl hsame
    · cases h
      exact absurd rfl hsame
  · rename_i last srd files hp
    cases hm
    simp only [Surface.step, hp] at h
    split at h
    · cases h
    · rename_i wl data' hsign
      obtain ⟨roots, sig, -, -, -, hdata, -⟩ := signUpgrade_success hsign
      cases h
      rw [List.getElem?_concat_length] at hd
      obtain ⟨rfl, rfl⟩ := Prod.mk.inj (Option.some.inj hd)
      exact ⟨_, _, _, _, hdata⟩
    · cases h
      exact absurd rfl hsame
  · cases hm

theorem Inv.returned (h : Inv mem floatText s) {e : Surface.State τ} (hne : s.status ≠ .complete)
    (hd : ∀ texts data, e.ending[s.enclave.ending.length]? = some (texts, data) →
      Holds data texts) :
    Inv mem floatText (returned s e) := by
  unfold UpgradeExit.returned
  split
  · rename_i texts data he
    refine h.outside hne rfl rfl rfl (fun ht => by cases ht) fun texts' k ht => ?_
    cases ht
    exact hd _ _ he
  · refine h.outside hne rfl rfl rfl ?_ ?_
    · dsimp only
      split_ifs
      · decide
      · decide
    · intro texts k
      dsimp only
      split_ifs
      · exact fun ht => by cases ht
      · exact fun ht => by cases ht

theorem Inv.done (h : Inv mem floatText s) {texts : Serialized} {k : Nat} {e : Surface.State τ}
    (ht : s.tick = .released texts k) (hu : undisturbed mem floatText texts s.enclave = true)
    (hstep : Surface.step sha256 mem verify floatText usable s.enclave (.genDone k) = some e) :
    Inv mem floatText { s with enclave := e, tick := .succeeded } := by
  have hne : s.status ≠ .complete := h.generating (by rw [ht]; rfl)
  obtain ⟨key, srdRoot, filesRoot, sig, htext⟩ := h.released texts k ht
  simp only [undisturbed, Bool.and_eq_true, decide_eq_true_eq, List.isEmpty_iff] at hu
  obtain ⟨⟨⟨hcalm, hnew⟩, hsrd⟩, hfiles⟩ := hu
  have hsuccess := status_of_genDone hstep
  simp only [Surface.step] at hstep
  split at hstep
  · cases hstep
  cases hstep
  refine ⟨fun _ => hne, h.served, h.announced, h.one, fun _ _ hr => (by cases hr),
    fun _ => ⟨_, frozen_start hsuccess hcalm, hnew, ?_⟩⟩
  rw [hsrd, hfiles] at htext
  exact ⟨key, _, _, srdRoot, filesRoot, sig, htext⟩

theorem tick_inv (h : Inv mem floatText s)
    (ho : orderly sha256 mem floatText s (.tick env) = true)
    (hstep : tickStep sha256 mem verify floatText usable env s = some s') :
    Inv mem floatText s' := by
  have hidle : s.status ≠ .complete → successes s = 0 := fun hne => by
    by_contra hn
    exact hne (h.complete hn)
  simp only [orderly] at ho
  unfold tickStep at hstep
  split at hstep
  · split_ifs at hstep with hp
    · cases hstep
      have hne : s.status ≠ .complete := by
        rw [hp.1]
        decide
      exact h.outside hne rfl rfl rfl (fun ht => by cases ht) fun _ _ ht => by cases ht
    · cases hstep
      exact h.goto rfl
  · rename_i ht
    cases hstep
    have hne : s.status ≠ .complete := h.generating (by rw [ht]; rfl)
    have hs : Inv mem floatText { s with tick := .genCheck } := h.goto rfl
    exact hs.setUpgradeStatus (hidle hne) (by decide)
  · split_ifs at hstep with hended
    · cases hstep
      have hne : s.status ≠ .complete := by
        rw [hended]
        decide
      exact h.outside hne rfl rfl rfl (fun ht => by cases ht) fun _ _ ht => by cases ht
    · cases hstep
      exact h.goto rfl
  · rename_i ht
    have hne : s.status ≠ .complete := h.generating (by rw [ht]; rfl)
    split at hstep
    · obtain ⟨e, he, rfl⟩ := Option.map_eq_some_iff.mp hstep
      refine h.returned hne fun texts data hd => ?_
      rw [genReport_ending he, List.getElem?_eq_none le_rfl] at hd
      cases hd
    · cases hstep
      exact h.goto rfl
  · rename_i ht
    split at hstep
    · cases hstep
    rename_i m hm
    obtain ⟨e, he, rfl⟩ := Option.map_eq_some_iff.mp hstep
    exact h.returned (h.generating (by rw [ht]; rfl)) fun _ _ hd => part_ending hm he hd
  · rename_i texts k ht
    rw [ht] at ho
    obtain ⟨e, he, rfl⟩ := Option.map_eq_some_iff.mp hstep
    exact h.done ht ho he
  · rename_i ht
    cases hstep
    exact h.succeed ht
  · split_ifs at hstep
    · cases hstep
      exact h.count rfl rfl rfl rfl rfl le_rfl
    · cases hstep
      exact h.goto rfl
  · split_ifs at hstep
    · cases hstep
      exact h.goto rfl
    · cases hstep
      exact h.goto rfl
    · cases hstep
      exact h.goto rfl
  · rename_i ht
    rw [ht] at ho
    cases hstep
    have hs : Inv mem floatText
        { s with tick := .endCheck, tryout := upgradeTimeout / checkInterval } := h.goto rfl
    exact hs.setUpgradeStatus (of_decide_eq_true ho) (by decide)

/-! ### The requests -/

theorem count_eraseIdx {l : List Bool} {k : Nat} {b : Bool} (h : l[k]? = some b) :
    l.count true = (b :: l.eraseIdx k).count true := by
  obtain ⟨hk, rfl⟩ := List.getElem?_eq_some_iff.mp h
  exact ((List.getElem_cons_eraseIdx_perm hk).count_eq true).symm

theorem step_inv {m : Move τ} (hstep : step sha256 mem verify floatText usable s m = some s')
    (ho : orderly sha256 mem floatText s m = true) (h : Inv mem floatText s) :
    Inv mem floatText s' := by
  unfold step at hstep
  split at hstep
  · cases hstep
  cases m with
  | start =>
    dsimp only at hstep
    split at hstep
    · cases hstep
      exact h
    · cases hstep
      exact h.count rfl rfl rfl rfl rfl le_rfl
  | stop header =>
    dsimp only at hstep
    split at hstep
    · cases hstep
    cases hstep
    have hs : Inv mem floatText
        { s with admitted := s.admitted - 1, starting := s.starting ++ header.toList } :=
      h.count rfl rfl rfl rfl rfl le_rfl
    exact hs.setUpgradeStatus (of_decide_eq_true ho) (by decide)
  | enable k invoked =>
    dsimp only at hstep
    split at hstep
    · cases hstep
    rename_i height hk
    have hs : Inv mem floatText { s with starting := s.starting.eraseIdx k } :=
      h.count rfl rfl rfl rfl rfl le_rfl
    split at hstep
    · cases hstep
      exact hs
    rename_i hinvoked
    obtain ⟨e, he, rfl⟩ := Option.map_eq_some_iff.mp hstep
    refine hs.enclave fun hover _ hf => hf.finish ?_ he
    have hover' : handedOver s = true := hover
    have hinv : invoked = true := not_not.mp hinvoked
    simpa [orderly, hk, hover', hinv] using ho
  | enabled =>
    obtain ⟨e, he, rfl⟩ := Option.map_eq_some_iff.mp hstep
    have hs : Inv mem floatText { s with enclave := e } :=
      h.enclave fun _ _ hf => step_frozen he rfl hf
    exact hs.count rfl rfl rfl rfl rfl le_rfl
  | process =>
    dsimp only at hstep
    split at hstep
    · cases hstep
    cases hstep
    have hs : Inv mem floatText { s with enabled := s.enabled - 1 } :=
      h.count rfl rfl rfl rfl rfl le_rfl
    exact hs.setUpgradeStatus (of_decide_eq_true ho) (by decide)
  | metadata =>
    cases hstep
    split
    · exact h.count rfl rfl rfl rfl rfl le_rfl
    · exact h
  | fetch =>
    dsimp only at hstep
    split at hstep
    · cases hstep
    cases hstep
    exact h.fetch
  | complete success =>
    dsimp only at hstep
    split at hstep
    · cases hstep
      exact h
    rename_i hexit
    cases hstep
    cases success with
    | false =>
      refine h.count rfl rfl rfl rfl rfl ?_
      simp [successes]
    | true =>
      simp only [orderly, hexit, decide_false, Bool.false_or, Bool.and_eq_true,
        decide_eq_true_eq] at ho
      exact h.letIn ho.1 ho.2
  | answer k =>
    dsimp only at hstep
    split at hstep
    · cases hstep
    rename_i success hk
    have hcount := count_eraseIdx hk
    split_ifs at hstep with hsuccess
    · cases hstep
      refine h.count rfl rfl rfl rfl rfl ?_
      simp only [successes, hcount, hsuccess, List.count_cons_self]
      omega
    · cases hstep
      have hn : successes s = 0 := by simpa [orderly, hk, hsuccess] using ho
      have hn' : successes { s with completing := s.completing.eraseIdx k } = 0 := by
        simp only [successes, hcount, List.count_cons] at hn ⊢
        omega
      have hs : Inv mem floatText { s with completing := s.completing.eraseIdx k } :=
        h.count rfl rfl rfl rfl rfl (hn'.trans_le (Nat.zero_le _))
      exact hs.setUpgradeStatus hn' (by decide)
  | exit =>
    dsimp only at hstep
    split at hstep
    · cases hstep
    rename_i hpos
    cases hstep
    have hone := h.one
    have hn : successes { s with exiting := s.exiting - 1 } = 0 := by
      simp only [successes] at hone ⊢
      omega
    have hs : Inv mem floatText { s with exiting := s.exiting - 1 } :=
      h.count rfl rfl rfl rfl rfl (hn.trans_le (Nat.zero_le _))
    exact hs.setUpgradeStatus hn (by decide)
  | look =>
    dsimp only at hstep
    split at hstep
    · cases hstep
    cases hstep
    exact h.count rfl rfl rfl rfl rfl le_rfl
  | disable =>
    dsimp only at hstep
    split at hstep
    · cases hstep
    obtain ⟨e, he, rfl⟩ := Option.map_eq_some_iff.mp hstep
    have hs : Inv mem floatText { s with enclave := e } :=
      h.enclave fun hover _ _ => by simp [orderly, hover] at ho
    exact hs.count rfl rfl rfl rfl rfl le_rfl
  | tick env => exact tick_inv h ho hstep
  | enclave m =>
    dsimp only at hstep
    split at hstep
    · cases hstep
    obtain ⟨e, he, rfl⟩ := Option.map_eq_some_iff.mp hstep
    refine h.enclave fun hover _ hf => step_frozen he ?_ hf
    simpa [orderly, hover] using ho

end

/-! ### An upgrade in time and one that is late -/

def quietTick : Move Unit := .tick ⟨0, some 700, true, openGen⟩

def fetched : List (Move Unit) :=
  .enclave .mainLoop :: validPass.map .enclave ++
    [.start, .stop (some 700), .look, .enable 0 true, .enabled, .process, .look, quietTick,
      quietTick, .look] ++
    List.replicate 17 quietTick ++ [.look, .metadata, .fetch]

def timeout : List (Move Unit) :=
  List.replicate (2 + 4 * 240 + 1) quietTick ++ [.look, .disable]

end CrustSworker.UpgradeExit

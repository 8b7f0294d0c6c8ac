import CrustSworker.EUtils
import CrustSworker.TextSearch

/-!
# The gate of the web service during an upgrade

`http_handler` first asks whether an upgrade is going on and refuses the paths of a set, then it
dispatches by comparing the path with the path of each service. The gate looks for the exact
path behind the base; the dispatcher compares the paths of sealing and unsealing by `memcmp`
over their own length, so it also takes every longer path.
-/

namespace CrustSworker.ApiGate

open TextSearch

/-! ### Requests -/

inductive UpgradeStatus where
  | none
  | stopWorkreport
  | process
  | end_
  | complete
  | exit
  deriving DecidableEq

inductive Verb where
  | get
  | post
  | head
  | other
  deriving DecidableEq

structure Request where
  method : Verb
  target : Bytes
  backup : Option Bytes

inductive GetService where
  | workload
  | threadInfo
  | idInfo
  | upgradeStart
  | upgradeMetadata
  | upgradeComplete
  deriving DecidableEq

inductive Service where
  | srdChange
  | confirm
  | delete
  | seal
  | unseal
  deriving DecidableEq

/-- What becomes of a request; `performs` is reached behind the check of the backup, and what the
service then makes of the body, or answers to a wrong one with 402, is left out with the body. -/
inductive Outcome where
  | badRequest (why : Bytes)
  | throws
  | stopped
  | closed (routeTag : Bytes)
  | head
  | get (service : Option GetService)
  | debug
  | refused (result : Nat) (retInfo : Bytes)
  | performs (service : Service)
  | unknown
  deriving DecidableEq

/-! ### The handler -/

def upgradeBlockS : List Bytes :=
  [str "/workload", str "/srd/change", str "/storage/confirm", str "/storage/delete",
    str "/storage/seal", str "/storage/unseal"]

def pathOf (target : Bytes) : Bytes := target.takeWhile (· ≠ 63)

/-- `path.substr(path.find(base) + base.size(), path.size())`. A base that is not found is at
`npos`, so the sum wraps to one below its size, and `substr` throws behind the end. -/
def tagPos (base path : Bytes) : Nat :=
  match find base path 0 with
  | none => base.length - 1
  | some p => p + base.length

def routeTag (base path : Bytes) : Option Bytes :=
  if tagPos base path ≤ path.length then some (path.drop (tagPos base path)) else none

/-- `memcmp(path.c_str(), curPath.c_str(), curPath.size()) == 0`. -/
def startsWith (mem : Mem) (path curPath : Bytes) : Bool :=
  decide ((mem.read (path ++ [0]) curPath.length).val = curPath)

def checkBackup (chainBackup : Bytes) (req : Request) (service : Service) : Outcome :=
  match req.backup with
  | none => .refused 400 (str "Validate MerkleTree failed!Error: Empty backup!")
  | some backup =>
    if chainBackup ≠ backup then .refused 401 (str "Validate MerkleTree failed!Error: Invalid backup!")
    else .performs service

def getDispatch (base path : Bytes) : Outcome :=
  if path = base ++ str "/workload" then .get (some .workload)
  else if path = base ++ str "/enclave/thread_info" then .get (some .threadInfo)
  else if path = base ++ str "/enclave/id_info" then .get (some .idInfo)
  else if path = base ++ str "/upgrade/start" then .get (some .upgradeStart)
  else if path = base ++ str "/upgrade/metadata" then .get (some .upgradeMetadata)
  else if path = base ++ str "/upgrade/complete" then .get (some .upgradeComplete)
  else .get none

/-- The block of the debug flag does not leave the handler, so its path meets the others too. -/
def postDispatch (mem : Mem) (base chainBackup path : Bytes) (req : Request) : Outcome :=
  if path = base ++ str "/srd/change" then checkBackup chainBackup req .srdChange
  else if path = base ++ str "/storage/confirm" then checkBackup chainBackup req .confirm
  else if path = base ++ str "/storage/delete" then checkBackup chainBackup req .delete
  else if startsWith mem path (base ++ str "/storage/seal") then checkBackup chainBackup req .seal
  else if startsWith mem path (base ++ str "/storage/unseal") then
    checkBackup chainBackup req .unseal
  else if path = base ++ str "/debug" then .debug
  else .unknown

def dispatch (mem : Mem) (base chainBackup path : Bytes) (req : Request) : Outcome :=
  match req.method with
  | .head => .head
  | .get => getDispatch base path
  | .post => postDispatch mem base chainBackup path req
  | .other => .badRequest (str "Unknown HTTP-method")

def legalTarget (target : Bytes) : Bool :=
  target.head? = some 47 && (find (str "..") target 0).isNone

def httpHandler (mem : Mem) (base chainBackup : Bytes) (status : UpgradeStatus) (req : Request) :
    Outcome :=
  if req.method = .other then .badRequest (str "Unknown HTTP-method")
  else if ¬ legalTarget req.target then .badRequest (str "Illegal request-target")
  else
    let path := pathOf req.target
    match routeTag base path with
    | none => .throws
    | some tag =>
      if status = .exit then .stopped
      else if status ≠ .none ∧ status ≠ .stopWorkreport ∧ tag ∈ upgradeBlockS then .closed tag
      else dispatch mem base chainBackup path req

/-! ### What the gate lets through -/

structure Extends (mem : Mem) (base path : Bytes) : Prop where
  taken : startsWith mem path (base ++ str "/storage/seal") = true ∨
    startsWith mem path (base ++ str "/storage/unseal") = true
  notSeal : path ≠ base ++ str "/storage/seal"
  notUnseal : path ≠ base ++ str "/storage/unseal"
  tagged : routeTag base path ≠ none

theorem routeTag_append (base tag : Bytes) : routeTag base (base ++ tag) = some tag := by
  have hhead : FirstAt base ((base ++ tag).drop 0) [] _ := .of_head (List.prefix_append base tag)
  have hpos : tagPos base (base ++ tag) = base.length := by
    rw [tagPos, find_complete (Nat.zero_le _) hhead]
    exact Nat.zero_add _
  rw [routeTag, hpos, if_pos (by simp), List.drop_left]

theorem routeTag_short {base path tag : Bytes} (h : path.length < base.length)
    (htag : routeTag base path = some tag) : tag = [] := by
  have hnone : find base path 0 = none := by
    cases hfind : find base path 0 with
    | none => rfl
    | some p =>
      obtain ⟨-, -, -, hle⟩ := find_sound hfind
      omega
  have hpos : tagPos base path = base.length - 1 := by rw [tagPos, hnone]
  rw [routeTag, hpos] at htag
  split_ifs at htag with hle
  rw [← Option.some.inj htag]
  exact List.drop_eq_nil_of_le (by omega)

theorem startsWith_cases {mem : Mem} {base path tag : Bytes} (htag : (0 : UInt8) ∉ tag)
    (h : startsWith mem path (base ++ tag) = true) :
    (∃ s, path = base ++ tag ++ s) ∨ path.length < base.length := by
  have hread := of_decide_eq_true h
  by_cases hlen : (base ++ tag).length ≤ path.length
  · have hlong : (base ++ tag).length ≤ (path ++ [0]).length :=
      hlen.trans (List.prefix_append path [0]).length_le
    rw [mem.read_of_le hlong, List.take_append_of_le_length hlen] at hread
    have hsplit := List.take_append_drop (base ++ tag).length path
    rw [hread] at hsplit
    exact .inl ⟨_, hsplit.symm⟩
  · refine .inr (Nat.lt_of_not_le fun hbase => htag ?_)
    have hshort : (path ++ [0]).length ≤ (base ++ tag).length := by
      have hone : (path ++ [0]).length = path.length + 1 := by simp
      omega
    have hzero : (base ++ tag)[path.length]? = some 0 := by
      rw [← hread]
      simp only [Mem.read, List.take_of_length_le hshort]
      simp
    rw [List.getElem?_append_right hbase] at hzero
    exact List.mem_of_getElem? hzero

theorem longer_not_blocked {tag s : Bytes} (htag : tag = str "/storage/seal" ∨ tag = str "/storage/unseal")
    (hs : s ≠ []) : tag ++ s ∉ upgradeBlockS := by
  have hseal : ∀ t ∈ upgradeBlockS, str "/storage/seal" <+: t → t = str "/storage/seal" := by decide
  have hunseal : ∀ t ∈ upgradeBlockS, str "/storage/unseal" <+: t → t = str "/storage/unseal" := by
    decide
  intro hmem
  rcases htag with rfl | rfl
  · exact hs (List.append_right_eq_self.mp (hseal _ hmem (List.prefix_append _ _)))
  · exact hs (List.append_right_eq_self.mp (hunseal _ hmem (List.prefix_append _ _)))

section
variable {mem : Mem} {base chainBackup path : Bytes} {req : Request}

theorem checkBackup_performs {service service' : Service}
    (h : checkBackup chainBackup req service = .performs service') :
    req.backup = some chainBackup := by
  unfold checkBackup at h
  split at h
  · cases h
  · rename_i backup hbackup
    split_ifs at h with hsame
    rw [hbackup, not_not.mp hsame]

theorem checkBackup_of_backup (h : req.backup = some chainBackup) (service : Service) :
    checkBackup chainBackup req service = .performs service := by
  rw [checkBackup, h]
  exact if_neg (not_not.mpr rfl)

theorem postDispatch_performs {service : Service}
    (h : postDispatch mem base chainBackup path req = .performs service) :
    req.backup = some chainBackup ∧
      ((∃ tag ∈ upgradeBlockS, path = base ++ tag) ∨
        startsWith mem path (base ++ str "/storage/seal") = true ∨
        startsWith mem path (base ++ str "/storage/unseal") = true) := by
  unfold postDispatch at h
  split_ifs at h with h1 h2 h3 h4 h5
  · exact ⟨checkBackup_performs h, .inl ⟨_, by decide, h1⟩⟩
  · exact ⟨checkBackup_performs h, .inl ⟨_, by decide, h2⟩⟩
  · exact ⟨checkBackup_performs h, .inl ⟨_, by decide, h3⟩⟩
  · exact ⟨checkBackup_performs h, .inr (.inl h4)⟩
  · exact ⟨checkBackup_performs h, .inr (.inr h5)⟩

theorem postDispatch_of_startsWith (hbackup : req.backup = some chainBackup)
    (h : startsWith mem path (base ++ str "/storage/seal") = true ∨
      startsWith mem path (base ++ str "/storage/unseal") = true) :
    ∃ service, postDispatch mem base chainBackup path req = .performs service := by
  unfold postDispatch
  simp only [checkBackup_of_backup hbackup]
  split_ifs with h1 h2 h3 h4 h5
  · exact ⟨_, rfl⟩
  · exact ⟨_, rfl⟩
  · exact ⟨_, rfl⟩
  · exact ⟨_, rfl⟩
  · exact ⟨_, rfl⟩
  · exact absurd h (not_or.mpr ⟨h4, h5⟩)
  · exact absurd h (not_or.mpr ⟨h4, h5⟩)

theorem dispatch_performs {service : Service}
    (h : dispatch mem base chainBackup path req = .performs service) :
    req.method = .post ∧ postDispatch mem base chainBackup path req = .performs service := by
  unfold dispatch at h
  cases hmethod : req.method with
  | head =>
    rw [hmethod] at h
    cases h
  | get =>
    rw [hmethod] at h
    dsimp only at h
    unfold getDispatch at h
    split_ifs at h
  | post =>
    rw [hmethod] at h
    exact ⟨rfl, h⟩
  | other =>
    rw [hmethod] at h
    cases h

theorem httpHandler_tagged {status : UpgradeStatus} {tag : Bytes} (hother : req.method ≠ .other)
    (hlegal : legalTarget req.target = true) (htag : routeTag base (pathOf req.target) = some tag) :
    httpHandler mem base chainBackup status req =
      if status = .exit then .stopped
      else if status ≠ .none ∧ status ≠ .stopWorkreport ∧ tag ∈ upgradeBlockS then .closed tag
      else dispatch mem base chainBackup (pathOf req.target) req := by
  rw [httpHandler, if_neg hother, if_neg (not_not.mpr hlegal)]
  dsimp only
  rw [htag]

theorem Extends.not_blocked (h : Extends mem base path) {tag : Bytes}
    (htag : routeTag base path = some tag) : tag ∉ upgradeBlockS := by
  have hshort : path.length < base.length → tag ∉ upgradeBlockS := by
    intro hlt
    rw [routeTag_short hlt htag]
    decide
  have hlong : ∀ t, t = str "/storage/seal" ∨ t = str "/storage/unseal" →
      (∃ s, path = base ++ t ++ s) → path ≠ base ++ t → tag ∉ upgradeBlockS := by
    rintro t ht ⟨s, rfl⟩ hne
    rw [List.append_assoc, routeTag_append, Option.some_inj] at htag
    rw [← htag]
    refine longer_not_blocked ht ?_
    rintro rfl
    exact hne (List.append_nil _)
  rcases h.taken with htaken | htaken
  · exact (startsWith_cases (by decide) htaken).elim
      (fun hs => hlong _ (.inl rfl) hs h.notSeal) hshort
  · exact (startsWith_cases (by decide) htaken).elim
      (fun hs => hlong _ (.inr rfl) hs h.notUnseal) hshort

end

/-- During an upgrade no service is reached, unless a `POST` with the right backup has a path that
goes on behind the one of sealing or unsealing. -/
theorem upgrade_gate_iff {status : UpgradeStatus} (hnone : status ≠ .none)
    (hstop : status ≠ .stopWorkreport) (mem : Mem) (base chainBackup : Bytes) (req : Request) :
    (∀ service, httpHandler mem base chainBackup status req ≠ .performs service) ↔
      ¬ (status ≠ .exit ∧ req.method = .post ∧ legalTarget req.target = true ∧
        req.backup = some chainBackup ∧ Extends mem base (pathOf req.target)) := by
  rw [← not_exists, not_iff_not]
  constructor
  · rintro ⟨service, h⟩
    by_cases hother : req.method = .other
    · rw [httpHandler, if_pos hother] at h
      cases h
    by_cases hlegal : legalTarget req.target = true
    · cases htag : routeTag base (pathOf req.target) with
      | none =>
        rw [httpHandler, if_neg hother, if_neg (not_not.mpr hlegal)] at h
        dsimp only at h
        rw [htag] at h
        cases h
      | some tag =>
        rw [httpHandler_tagged hother hlegal htag] at h
        split_ifs at h with hexit hblocked
        have hneTag : ∀ t ∈ upgradeBlockS, pathOf req.target ≠ base ++ t := by
          intro t ht hpath
          rw [hpath, routeTag_append, Option.some_inj] at htag
          exact hblocked ⟨hnone, hstop, htag ▸ ht⟩
        obtain ⟨hmethod, hpost⟩ := dispatch_performs h
        obtain ⟨hbackup, hpath⟩ := postDispatch_performs hpost
        have htaken := hpath.resolve_left fun ⟨t, ht, hpath⟩ => hneTag t ht hpath
        exact ⟨hexit, hmethod, hlegal, hbackup, htaken, hneTag _ (by decide), hneTag _ (by decide),
          by rw [htag]; exact Option.some_ne_none _⟩
    · rw [httpHandler, if_neg hother, if_pos hlegal] at h
      cases h
  · rintro ⟨hexit, hmethod, hlegal, hbackup, hext⟩
    obtain ⟨tag, htag⟩ := Option.ne_none_iff_exists'.mp hext.tagged
    obtain ⟨service, hservice⟩ : ∃ service,
        postDispatch mem base chainBackup (pathOf req.target) req = .performs service :=
      postDispatch_of_startsWith hbackup hext.taken
    refine ⟨service, ?_⟩
    have hnotOther : req.method ≠ .other := by rw [hmethod]; exact Verb.noConfusion
    rw [httpHandler_tagged hnotOther hlegal htag, if_neg hexit,
      if_neg fun h => hext.not_blocked htag h.2.2, dispatch, hmethod]
    exact hservice

def sealRequest : Request := ⟨.post, str "/api/v0/storage/seal/x", some (str "backup")⟩

def zeroAfter : Mem := ⟨fun _ _ => 0⟩

theorem upgrade_gate_seal :
    (∀ service, httpHandler zeroAfter (str "/api/v0") (str "backup") .process sealRequest ≠
        .performs service) ↔
      ¬ (UpgradeStatus.process ≠ .exit ∧ sealRequest.method = .post ∧
        legalTarget sealRequest.target = true ∧ sealRequest.backup = some (str "backup") ∧
        Extends zeroAfter (str "/api/v0") (pathOf sealRequest.target)) :=
  upgrade_gate_iff (by decide) (by decide) _ _ _ _

theorem upgrade_gate_passed :
    ¬ ∀ (status : UpgradeStatus) (mem : Mem) (base chainBackup : Bytes) (req : Request),
      status ≠ .none → status ≠ .stopWorkreport →
      ∀ service, httpHandler mem base chainBackup status req ≠ .performs service := by
  intro hclaim
  have hserved : httpHandler zeroAfter (str "/api/v0") (str "backup") .process sealRequest =
      .performs .seal := by decide +kernel
  exact hclaim .process _ _ _ _ (by decide) (by decide) _ hserved

end CrustSworker.ApiGate

import CrustSworker.Persistence

/-!
# The new version during an upgrade

The new version asks the old one to get ready, fetches its data, hands them to the enclave in
chunks and tells the old version whether that succeeded. The enclave answers each chunk; the
loop over the chunks is the walk of the list of chunks, and where the walk comes to the end of
the list the code goes on as if the data were accepted.
-/

namespace CrustSworker.UpgradeClient

open Persistence Pieces

/-! ### The other parties -/

structure Chunk where
  data : Bytes
  totalSize : Nat
  transferEnd : Bool
  deriving DecidableEq

/-- What `Ecall_restore_from_upgrade` answers: whether the call itself went through, and the status. -/
abbrev Reply := Bool × CrustStatus

/-- The old version, the enclave and the rest of the system, over the state they share. -/
structure Host (σ : Type) where
  getStart : σ → Nat × σ
  getMetadata : σ → (Nat × Bytes) × σ
  getComplete : Bool → σ → Nat × σ
  initializeEnclave : σ → Bool × σ
  genKeyPair : σ → Bool × σ
  restore : σ → Chunk → Reply × σ
  destroyEnclave : σ → σ
  initializeComponents : σ → Bool × σ

def initQuoteFailed : CrustStatus := .host 0x4036

def upgradeStartTryout : Nat := 6 * 300 * 2
def upgradeMetaTryout : Nat := 6 * 300 / 5
def upgradeCompleteTryout : Nat := 6 * 10

variable {σ : Type}

/-! ### The code -/

def startLoop (host : Host σ) : Nat → σ → Bool × σ
  | tryout, s =>
    let res := host.getStart s
    if res.1 = 200 then (true, res.2)
    else if res.1 = 404 then (false, res.2)
    else
      match tryout with
      | 0 => (false, res.2)
      | tryout + 1 => startLoop host tryout res.2

def upgradeTryStart (host : Host σ) (s : σ) : Bool × σ :=
  startLoop host (upgradeStartTryout / 16) s

def metadataLoop (host : Host σ) : Nat → σ → Option Bytes × σ
  | tryout, s =>
    let res := host.getMetadata s
    if res.1.1 = 200 then (some res.1.2, res.2)
    else if res.1.1 = 404 then (none, res.2)
    else
      match tryout with
      | 0 => (none, res.2)
      | tryout + 1 => metadataLoop host tryout res.2

inductive LoopEnd where
  | accepted
  | exhausted
  | quoteFailed
  | failed
  deriving DecidableEq

def chunkLoop (restore : σ → Chunk → Reply × σ) (data : Bytes) :
    Nat → Nat → σ → Option (LoopEnd × List (Chunk × Reply) × σ)
  | fuel, metaOffset, s =>
    if data.length > metaOffset then
      match fuel with
      | 0 => none
      | fuel + 1 =>
        let partialSize := min (data.length - metaOffset) ocallStoreThreshold
        let chunk : Chunk := ⟨(data.drop metaOffset).take partialSize, data.length,
          decide (metaOffset + partialSize ≥ data.length)⟩
        let r := restore s chunk
        if ¬ r.1.1 then some (.failed, [(chunk, r.1)], r.2)
        else if r.1.2 = .success then some (.accepted, [(chunk, r.1)], r.2)
        else if r.1.2 = initQuoteFailed then some (.quoteFailed, [(chunk, r.1)], r.2)
        else if r.1.2 = .upgradeNeedLeftData then
          (chunkLoop restore data fuel (metaOffset + partialSize) r.2).map
            fun q => (q.1, (chunk, r.1) :: q.2.1, q.2.2)
        else some (.failed, [(chunk, r.1)], r.2)
    else some (.exhausted, [], s)

structure Restored (σ : Type) where
  result : Bool
  sent : List (Chunk × Reply)
  state : σ

def restoreTryAgain (host : Host σ) (data : Bytes) : Nat → σ → Option (Restored σ)
  | restoreTryout, s =>
    let enclave := host.initializeEnclave s
    if ¬ enclave.1 then some ⟨false, [], enclave.2⟩
    else
      let key := host.genKeyPair enclave.2
      if ¬ key.1 then some ⟨false, [], key.2⟩
      else
        match chunkLoop host.restore data data.length 0 key.2 with
        | none => none
        | some (.accepted, sent, s) => some ⟨true, sent, s⟩
        | some (.exhausted, sent, s) => some ⟨true, sent, s⟩
        | some (.failed, sent, s) => some ⟨false, sent, s⟩
        | some (.quoteFailed, sent, s) =>
          match restoreTryout with
          | 0 => some ⟨false, sent, s⟩
          | restoreTryout + 1 =>
            if restoreTryout > 0 then
              (restoreTryAgain host data restoreTryout (host.destroyEnclave s)).map
                fun r => { r with sent := sent ++ r.sent }
            else some ⟨false, sent, s⟩

def upgradeTryRestore (host : Host σ) (s : σ) : Option (Restored σ) :=
  match metadataLoop host (upgradeMetaTryout / 10) s with
  | (none, s) => some ⟨false, [], s⟩
  | (some body, s) => restoreTryAgain host body 3 s

def completeLoop (host : Host σ) (restoreRes : Bool) : Nat → σ → List Bool × σ
  | tryout, s =>
    let res := host.getComplete restoreRes s
    if res.1 ≠ 200 ∧ res.1 ≠ 404 then
      match tryout with
      | 0 => ([restoreRes], res.2)
      | tryout + 1 =>
        if tryout > 0 then
          let r := completeLoop host restoreRes tryout res.2
          (restoreRes :: r.1, r.2)
        else ([restoreRes], res.2)
    else ([restoreRes], res.2)

structure Upgraded (σ : Type) where
  result : Bool
  sent : List (Chunk × Reply)
  told : List Bool
  state : σ

def upgradeTryComplete (host : Host σ) (r : Restored σ) : Upgraded σ :=
  let told := completeLoop host r.result (upgradeCompleteTryout / 1) r.state
  if r.result then
    let components := host.initializeComponents told.2
    ⟨components.1, r.sent, told.1, components.2⟩
  else ⟨false, r.sent, told.1, told.2⟩

def doUpgrade (host : Host σ) (s : σ) : Option (Upgraded σ) :=
  match upgradeTryStart host s with
  | (false, s) => some ⟨false, [], [], s⟩
  | (true, s) => (upgradeTryRestore host s).map (upgradeTryComplete host)

/-! ### The chunks -/

/-- The pieces as they are sent: the last one ends the transfer. -/
def chunksFrom (totalSize : Nat) : List Bytes → List Chunk
  | [] => []
  | p :: ps => ⟨p, totalSize, ps.isEmpty⟩ :: chunksFrom totalSize ps

def chunks (data : Bytes) : List Chunk := chunksFrom data.length (cut ocallStoreThreshold data)

def walk (restore : σ → Chunk → Reply × σ) : List Chunk → σ → LoopEnd × List (Chunk × Reply) × σ
  | [], s => (.exhausted, [], s)
  | c :: cs, s =>
    let r := restore s c
    if ¬ r.1.1 then (.failed, [(c, r.1)], r.2)
    else if r.1.2 = .success then (.accepted, [(c, r.1)], r.2)
    else if r.1.2 = initQuoteFailed then (.quoteFailed, [(c, r.1)], r.2)
    else if r.1.2 = .upgradeNeedLeftData then
      let q := walk restore cs r.2
      (q.1, (c, r.1) :: q.2.1, q.2.2)
    else (.failed, [(c, r.1)], r.2)

theorem chunkLoop_eq (restore : σ → Chunk → Reply × σ) (data : Bytes) {fuel offset : Nat}
    (hfuel : data.length ≤ offset + fuel) (s : σ) :
    chunkLoop restore data fuel offset s =
      some (walk restore (chunksFrom data.length (cut ocallStoreThreshold (data.drop offset))) s) := by
  have hpos : 0 < ocallStoreThreshold := by decide
  induction fuel generalizing offset s with
  | zero =>
    have hnil : data.drop offset = [] := List.drop_eq_nil_of_le (by omega)
    rw [chunkLoop, if_neg (by omega), hnil, cut_nil]
    rfl
  | succ fuel ih =>
    by_cases hmore : data.length > offset
    · rw [cut_drop hpos hmore, chunksFrom, walk, chunkLoop, if_pos hmore, isEmpty_cut hpos]
      dsimp only
      have hnext : ∀ s, chunkLoop restore data fuel
          (offset + min (data.length - offset) ocallStoreThreshold) s = some _ :=
        ih (by rw [ocallStoreThreshold]; omega)
      simp only [hnext, Option.map_some]
      split_ifs <;> rfl
    · have hnil : data.drop offset = [] := List.drop_eq_nil_of_le (by omega)
      rw [chunkLoop, if_neg hmore, hnil, cut_nil]
      rfl

/-! ### What a true result means -/

def Accepted (sent : List (Chunk × Reply)) : Prop := ∃ c, (c, (true, CrustStatus.success)) ∈ sent

def AllLeft (restore : σ → Chunk → Reply × σ) : List Chunk → σ → Prop
  | [], _ => True
  | c :: cs, s =>
    (restore s c).1 = (true, .upgradeNeedLeftData) ∧ AllLeft restore cs (restore s c).2

def QuoteFails (restore : σ → Chunk → Reply × σ) : List Chunk → σ → σ → Prop
  | [], _, _ => False
  | c :: cs, s, s' =>
    ((restore s c).1 = (true, initQuoteFailed) ∧ s' = (restore s c).2) ∨
      ((restore s c).1 = (true, .upgradeNeedLeftData) ∧ QuoteFails restore cs (restore s c).2 s')

def Starts (host : Host σ) (s s' : σ) : Prop :=
  (host.initializeEnclave s).1 = true ∧
    host.genKeyPair (host.initializeEnclave s).2 = (true, s')

/-- Within the given tries an attempt is reached that is asked for more data after every chunk. -/
def Unaccepted (host : Host σ) (cs : List Chunk) : Nat → σ → Prop
  | 0, s => ∃ s', Starts host s s' ∧ AllLeft host.restore cs s'
  | tryout + 1, s => ∃ s', Starts host s s' ∧
      (AllLeft host.restore cs s' ∨ (0 < tryout ∧ ∃ s'', QuoteFails host.restore cs s' s'' ∧
        Unaccepted host cs tryout (host.destroyEnclave s'')))

section
variable {restore : σ → Chunk → Reply × σ}

def endOf (reply : Reply) : LoopEnd :=
  if ¬ reply.1 then .failed
  else if reply.2 = .success then .accepted
  else if reply.2 = initQuoteFailed then .quoteFailed
  else .failed

theorem walk_left {c : Chunk} {cs : List Chunk} {s : σ}
    (h : (restore s c).1 = (true, .upgradeNeedLeftData)) :
    walk restore (c :: cs) s =
      ((walk restore cs (restore s c).2).1,
        (c, (true, .upgradeNeedLeftData)) :: (walk restore cs (restore s c).2).2.1,
        (walk restore cs (restore s c).2).2.2) := by
  rw [walk]
  dsimp only
  rw [h]
  rfl

theorem walk_stop {c : Chunk} {s : σ} (h : (restore s c).1 ≠ (true, .upgradeNeedLeftData))
    (cs : List Chunk) :
    walk restore (c :: cs) s = (endOf (restore s c).1, [(c, (restore s c).1)], (restore s c).2) := by
  have hleft : (restore s c).1.1 = true → (restore s c).1.2 ≠ .upgradeNeedLeftData :=
    fun hcalled hstatus => h (Prod.ext hcalled hstatus)
  rw [walk, endOf]
  dsimp only
  by_cases hcalled : (restore s c).1.1 = true
  · rw [if_neg (hleft hcalled)]
    split_ifs <;> rfl
  · rw [if_pos hcalled, if_pos hcalled]

theorem endOf_accepted_iff (reply : Reply) : endOf reply = .accepted ↔ reply = (true, .success) := by
  obtain ⟨called, status⟩ := reply
  unfold endOf
  cases called with
  | false => simp
  | true => split_ifs <;> simp_all

theorem endOf_quoteFailed_iff (reply : Reply) :
    endOf reply = .quoteFailed ↔ reply = (true, initQuoteFailed) := by
  obtain ⟨called, status⟩ := reply
  unfold endOf
  cases called with
  | false => simp
  | true => split_ifs <;> simp_all [initQuoteFailed]

theorem endOf_ne_exhausted (reply : Reply) : endOf reply ≠ .exhausted := by
  unfold endOf
  split_ifs <;> exact LoopEnd.noConfusion

variable (restore) in
theorem walk_exhausted_iff (cs : List Chunk) (s : σ) :
    (walk restore cs s).1 = .exhausted ↔ AllLeft restore cs s := by
  induction cs generalizing s with
  | nil => exact ⟨fun _ => trivial, fun _ => rfl⟩
  | cons c cs ih =>
    rw [AllLeft, ← ih]
    by_cases hleft : (restore s c).1 = (true, .upgradeNeedLeftData)
    · rw [walk_left hleft, and_iff_right hleft]
    · rw [walk_stop hleft]
      exact iff_of_false (endOf_ne_exhausted _) fun h => hleft h.1

variable (restore) in
theorem walk_quoteFailed_iff (cs : List Chunk) (s s' : σ) :
    ((walk restore cs s).1 = .quoteFailed ∧ s' = (walk restore cs s).2.2) ↔
      QuoteFails restore cs s s' := by
  induction cs generalizing s with
  | nil => simp [walk, QuoteFails]
  | cons c cs ih =>
    rw [QuoteFails, ← ih]
    by_cases hleft : (restore s c).1 = (true, .upgradeNeedLeftData)
    · have hquote : ¬ ((restore s c).1 = (true, initQuoteFailed) ∧ s' = (restore s c).2) := by
        rw [hleft]
        simp [initQuoteFailed]
      rw [walk_left hleft, or_iff_right hquote, and_iff_right hleft]
    · rw [walk_stop hleft, endOf_quoteFailed_iff, or_iff_left fun h => hleft h.1]

variable (restore) in
theorem walk_accepted_iff (cs : List Chunk) (s : σ) :
    (walk restore cs s).1 = .accepted ↔ Accepted (walk restore cs s).2.1 := by
  induction cs generalizing s with
  | nil => simp [walk, Accepted]
  | cons c cs ih =>
    by_cases hleft : (restore s c).1 = (true, .upgradeNeedLeftData)
    · rw [walk_left hleft, ih]
      simp [Accepted]
    · rw [walk_stop hleft, endOf_accepted_iff]
      simp [Accepted, eq_comm]

end

section
variable {host : Host σ} {data : Bytes}

theorem Starts.unique {s s' s'' : σ} (h : Starts host s s') (h' : Starts host s s'') : s' = s'' :=
  (Prod.mk.inj (h.2.symm.trans h'.2)).2

theorem Starts.unaccepted_iff {cs : List Chunk} {tryout : Nat} {s s' : σ} (h : Starts host s s') :
    Unaccepted host cs tryout s ↔ AllLeft host.restore cs s' ∨
      ∃ t s'', tryout = t + 1 ∧ 0 < t ∧ QuoteFails host.restore cs s' s'' ∧
        Unaccepted host cs t (host.destroyEnclave s'') := by
  cases tryout with
  | zero =>
    refine ⟨fun ⟨_, h', hleft⟩ => .inl (h.unique h' ▸ hleft), fun hor => ⟨s', h, ?_⟩⟩
    exact hor.resolve_right fun ⟨_, _, ht, _⟩ => Nat.noConfusion ht
  | succ tryout =>
    constructor
    · rintro ⟨s₁, h', hor⟩
      rw [← h.unique h'] at hor
      exact hor.imp_right fun ⟨hpos, s'', hquote, hnext⟩ => ⟨tryout, s'', rfl, hpos, hquote, hnext⟩
    · rintro (hleft | ⟨t, s'', ht, hpos, hquote, hnext⟩)
      · exact ⟨s', h, .inl hleft⟩
      · obtain rfl := Nat.succ.inj ht
        exact ⟨s', h, .inr ⟨hpos, s'', hquote, hnext⟩⟩

theorem Unaccepted.starts {cs : List Chunk} {tryout : Nat} {s : σ} (h : Unaccepted host cs tryout s) :
    ∃ s', Starts host s s' := by
  cases tryout with
  | zero =>
    obtain ⟨s', hs', -⟩ := h
    exact ⟨s', hs'⟩
  | succ tryout =>
    obtain ⟨s', hs', -⟩ := h
    exact ⟨s', hs'⟩

def afterWalk (host : Host σ) (data : Bytes) (tryout : Nat)
    (r : LoopEnd × List (Chunk × Reply) × σ) : Option (Restored σ) :=
  match r with
  | (.accepted, sent, s) => some ⟨true, sent, s⟩
  | (.exhausted, sent, s) => some ⟨true, sent, s⟩
  | (.failed, sent, s) => some ⟨false, sent, s⟩
  | (.quoteFailed, sent, s) =>
    match tryout with
    | 0 => some ⟨false, sent, s⟩
    | tryout + 1 =>
      if tryout > 0 then
        (restoreTryAgain host data tryout (host.destroyEnclave s)).map
          fun r => { r with sent := sent ++ r.sent }
      else some ⟨false, sent, s⟩

theorem restoreTryAgain_started {s s' : σ} (h : Starts host s s') (tryout : Nat) :
    restoreTryAgain host data tryout s =
      afterWalk host data tryout (walk host.restore (chunks data) s') := by
  have hloop : chunkLoop host.restore data data.length 0 s' = some (walk host.restore _ s') :=
    chunkLoop_eq host.restore data (Nat.le_add_left _ _) s'
  rw [List.drop_zero] at hloop
  rw [restoreTryAgain]
  dsimp only
  rw [if_neg (not_not.mpr h.1), h.2]
  dsimp only
  rw [if_neg (not_not.mpr rfl), hloop, ← chunks]
  obtain ⟨e, sent, s''⟩ := walk host.restore (chunks data) s'
  cases e <;> rfl

variable (data) in
theorem restoreTryAgain_not_started {s : σ} (h : ¬ ∃ s', Starts host s s') (tryout : Nat) :
    ∃ s', restoreTryAgain host data tryout s = some ⟨false, [], s'⟩ := by
  rw [restoreTryAgain]
  dsimp only
  by_cases henclave : (host.initializeEnclave s).1 = true
  · have hkey : ¬ (host.genKeyPair (host.initializeEnclave s).2).1 = true :=
      fun hkey => h ⟨_, henclave, Prod.ext hkey rfl⟩
    rw [if_neg (not_not.mpr henclave), if_pos hkey]
    exact ⟨_, rfl⟩
  · rw [if_pos henclave]
    exact ⟨_, rfl⟩

end

theorem restoreTryAgain_spec (host : Host σ) (data : Bytes) (tryout : Nat) (s : σ) :
    ∃ r, restoreTryAgain host data tryout s = some r ∧
      ((r.result = true ∧ ¬ Accepted r.sent) ↔ Unaccepted host (chunks data) tryout s) := by
  induction tryout using Nat.strongRecOn generalizing s with
  | _ tryout ih =>
    by_cases hstart : ∃ s', Starts host s s'
    · obtain ⟨s', hs'⟩ := hstart
      have hexhausted := walk_exhausted_iff host.restore (chunks data) s'
      have haccepted := walk_accepted_iff host.restore (chunks data) s'
      have hquote := walk_quoteFailed_iff host.restore (chunks data) s'
      rw [restoreTryAgain_started hs', hs'.unaccepted_iff, ← hexhausted]
      simp only [← hquote]
      generalize walk host.restore (chunks data) s' = r at haccepted
      obtain ⟨e, sent, s''⟩ := r
      cases e with
      | accepted => exact ⟨_, rfl, by simp [haccepted.mp rfl]⟩
      | exhausted =>
        have hnot : ¬ Accepted sent := fun h => LoopEnd.noConfusion (haccepted.mpr h)
        exact ⟨_, rfl, by simp [hnot]⟩
      | failed => exact ⟨_, rfl, by simp⟩
      | quoteFailed =>
        have hnot : ¬ Accepted sent := fun h => LoopEnd.noConfusion (haccepted.mpr h)
        cases tryout with
        | zero => exact ⟨_, rfl, by simp⟩
        | succ tryout =>
          by_cases hpos : 0 < tryout
          · obtain ⟨r, hr, hiff⟩ := ih tryout (Nat.lt_succ_self _) (host.destroyEnclave s'')
            refine ⟨{ r with sent := sent ++ r.sent }, ?_, ?_⟩
            · rw [afterWalk, if_pos hpos, hr]
              rfl
            · have hsent : Accepted (sent ++ r.sent) ↔ Accepted r.sent := by
                simp only [Accepted, List.mem_append, exists_or] at hnot ⊢
                exact or_iff_right hnot
              dsimp only
              rw [hsent, hiff]
              simp [hpos]
          · refine ⟨⟨false, sent, s''⟩, if_neg hpos, ?_⟩
            simp [hpos]
    · obtain ⟨s', hs'⟩ := restoreTryAgain_not_started data hstart tryout
      exact ⟨_, hs', iff_of_false (fun h => Bool.noConfusion h.1) fun h => hstart h.starts⟩

/-- `upgrade_try_restore` ends, and a true result comes from a success among the replies. -/
def RestoresHonestly (host : Host σ) (s : σ) : Prop :=
  ∃ r, upgradeTryRestore host s = some r ∧ (r.result = true → Accepted r.sent)

/-- `do_upgrade` ends, and the old version hears of a success only when there was one. -/
def TellsHonestly (host : Host σ) (s : σ) : Prop :=
  ∃ u, doUpgrade host s = some u ∧ (true ∈ u.told → Accepted u.sent)

/-- Data are fetched that an attempt sends without a reply that ends the transfer. -/
def FetchesUnaccepted (host : Host σ) (s : σ) : Prop :=
  ∃ body s', metadataLoop host (upgradeMetaTryout / 10) s = (some body, s') ∧
    Unaccepted host (chunks body) 3 s'

theorem upgradeTryRestore_spec (host : Host σ) (s : σ) :
    ∃ r, upgradeTryRestore host s = some r ∧
      ((r.result = true ∧ ¬ Accepted r.sent) ↔ FetchesUnaccepted host s) := by
  unfold upgradeTryRestore FetchesUnaccepted
  obtain ⟨fetched, s'⟩ := metadataLoop host (upgradeMetaTryout / 10) s
  cases fetched with
  | none => exact ⟨_, rfl, by simp⟩
  | some body =>
    obtain ⟨r, hr, hiff⟩ := restoreTryAgain_spec host body 3 s'
    refine ⟨r, hr, hiff.trans ?_⟩
    simp

theorem told_iff (host : Host σ) (restoreRes : Bool) (tryout : Nat) (s : σ) :
    true ∈ (completeLoop host restoreRes tryout s).1 ↔ restoreRes = true := by
  induction tryout generalizing s with
  | zero =>
    rw [completeLoop]
    split_ifs <;> simp [eq_comm]
  | succ tryout ih =>
    rw [completeLoop]
    dsimp only
    split_ifs
    · rw [List.mem_cons, ih, eq_comm, or_self]
    · simp [eq_comm]
    · simp [eq_comm]

theorem upgradeTryComplete_told (host : Host σ) (r : Restored σ) :
    (true ∈ (upgradeTryComplete host r).told ↔ r.result = true) ∧
      (upgradeTryComplete host r).sent = r.sent := by
  unfold upgradeTryComplete
  dsimp only
  split_ifs <;> exact ⟨told_iff _ _ _ _, rfl⟩

/-- Success is claimed honestly exactly when no attempt on the fetched data is asked for more data
after every chunk; an empty body has no chunk. -/
theorem upgrade_honest_iff (host : Host σ) (s : σ) :
    (RestoresHonestly host s ↔ ¬ FetchesUnaccepted host s) ∧
      (TellsHonestly host s ↔
        ∀ s', upgradeTryStart host s = (true, s') → ¬ FetchesUnaccepted host s') := by
  have hrestore : ∀ s, RestoresHonestly host s ↔ ¬ FetchesUnaccepted host s := by
    intro s
    obtain ⟨r, hr, hiff⟩ := upgradeTryRestore_spec host s
    rw [← hiff, not_and_not_right, RestoresHonestly]
    simp [hr]
  refine ⟨hrestore s, ?_⟩
  unfold TellsHonestly doUpgrade
  obtain ⟨started, s'⟩ := upgradeTryStart host s
  cases started with
  | false => simp
  | true =>
    obtain ⟨r, hr, -⟩ := upgradeTryRestore_spec host s'
    obtain ⟨htold, hsent⟩ := upgradeTryComplete_told host r
    have hsame : RestoresHonestly host s' ↔ (r.result = true → Accepted r.sent) := by
      simp [RestoresHonestly, hr]
    simp [hr, htold, hsent, ← hrestore, hsame]

def emptyBody : Host Unit where
  getStart := fun s => (200, s)
  getMetadata := fun s => ((200, []), s)
  getComplete := fun _ s => (200, s)
  initializeEnclave := fun s => (true, s)
  genKeyPair := fun s => (true, s)
  restore := fun s _ => ((true, .upgradeNeedLeftData), s)
  destroyEnclave := id
  initializeComponents := fun s => (true, s)

theorem upgrade_claims_empty :
    ¬ ∀ (σ : Type) (host : Host σ) (s : σ), RestoresHonestly host s ∧ TellsHonestly host s := by
  intro hclaim
  obtain ⟨u, hu, htold⟩ := (hclaim Unit emptyBody ()).2
  have hrun : doUpgrade emptyBody () = some ⟨true, [], [true], ()⟩ := rfl
  rw [hrun, Option.some_inj] at hu
  rw [← hu] at htold
  obtain ⟨c, hc⟩ := htold List.mem_cons_self
  cases hc

end CrustSworker.UpgradeClient

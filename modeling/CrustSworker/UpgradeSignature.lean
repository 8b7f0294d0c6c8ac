import CrustSworker.Upgrade

/-!
# What the upgrade signature covers

The old enclave signs its key, the height and hash texts and the two roots. The roots
are taken over the G hashes in map order and over the file hashes in list order, so two
documents under one signature agree on these, and on nothing else of the workload.
-/

namespace CrustSworker.Upgrade

open Report

variable {τ : Type}

def Loads (mem : Mem) (s : State τ) (c : Call) (doc : JSON) : Prop :=
  JsonParse.loadBuffer mem
    (contents (if s.received.length = 0 then c.totalSize else s.total) (s.received ++ c.data))
    (s.received ++ c.data).length = .ok doc

def restored (env : UpgradeEnv) (tagOf : Nat → τ) (s : State τ) (doc : JSON) : Workload τ :=
  (restoreWorkload env tagOf s.wl doc).2

/-- `id_restore_from_upgrade` returns success for a document under this key and signature. -/
structure Accepts (sha256 : Bytes → Hash) (mem : Mem) (verify : Verify) (tagOf : Nat → τ)
    (s : State τ) (c : Call) (doc : JSON) (key : PubKey) (sig : Signature) : Prop where
  last : c.transferEnd = true
  loads : Loads mem s c doc
  success : (idRestoreFromUpgrade sha256 mem verify tagOf s c).map (fun r => r.1.status) =
    some .success
  pubKey : pubKeyOf mem c.env doc = some key
  signature : signatureOf mem c.env doc = some sig

def rootMessages (mem : Mem) (wl : Workload τ) : List Bytes :=
  [Workload.concatHashs (Workload.srdHashs mem wl.srdPath2hashs),
    Workload.concatHashs ((Workload.fileHashs wl.checkedFiles).getD [])]

/-- No two of the messages collide, and none hits the root that stands for nothing. -/
structure CollisionFree (sha256 : Bytes → Hash) (msgs : List Bytes) : Prop where
  injOn : ∀ m ∈ msgs, ∀ m' ∈ msgs, sha256 m = sha256 m' → m = m'
  ne_zero : ∀ m ∈ msgs, sha256 m ≠ zeroHash

def rootHash (sha256 : Bytes → Hash) (isEmpty : Bool) (hs : List Hash) : Hash :=
  if isEmpty then zeroHash else sha256 (Workload.concatHashs hs)

section
variable {sha256 : Bytes → Hash} {mem mem₁ mem₂ : Mem} {verify : Verify} {tagOf : Nat → τ}
  {env : UpgradeEnv} {wl : Workload τ} {doc doc₁ doc₂ : JSON} {key : PubKey} {sig : Signature}

theorem rootHash_injective {msgs : List Bytes} {e e' : Bool} {hs hs' : List Hash}
    (hc : CollisionFree sha256 msgs) (hm : Workload.concatHashs hs ∈ msgs)
    (hm' : Workload.concatHashs hs' ∈ msgs) (he : e = true → hs = []) (he' : e' = true → hs' = [])
    (h : rootHash sha256 e hs = rootHash sha256 e' hs') : hs = hs' := by
  unfold rootHash at h
  split_ifs at h with h₁ h₂ h₂
  · rw [he h₁, he' h₂]
  · exact absurd h.symm (hc.ne_zero _ hm')
  · exact absurd h (hc.ne_zero _ hm)
  · exact Workload.concatHashs_injective (hc.injOn _ hm _ hm' h)

theorem genWorkloadInfo_roots {allocSrd allocFiles : Bool} {srdRoot filesRoot : Hash}
    (h : wl.genWorkloadInfo sha256 mem allocSrd allocFiles = some (srdRoot, filesRoot)) :
    ∃ hs, Workload.fileHashs wl.checkedFiles = some hs ∧
      srdRoot = rootHash sha256 wl.srdPath2hashs.isEmpty
        (Workload.srdHashs mem wl.srdPath2hashs) ∧
      filesRoot = rootHash sha256 hs.isEmpty hs := by
  unfold Workload.genWorkloadInfo at h
  dsimp only at h
  split at h
  · cases h
  rename_i hs hhs
  split at h
  · cases h
  rename_i hsrd
  split at h
  · cases h
  rename_i hfiles
  cases h
  have hlen := Workload.length_fileHashs hhs
  refine ⟨hs, hhs, ?_, ?_⟩
  · unfold rootHash
    by_cases hm : wl.srdPath2hashs = []
    · rw [if_pos hm, if_pos (List.isEmpty_iff.mpr hm)]
    · rw [if_neg hm, if_neg fun he => hm (List.isEmpty_iff.mp he), sgxSha256Msg_of_le]
      rw [Workload.length_concatHashs]
      exact encMalloc_le (by_contra fun ha => hsrd ⟨hm, ha⟩)
  · unfold rootHash
    by_cases hn : wl.checkedFiles.length = 0
    · rw [if_pos hn, if_pos (List.isEmpty_iff.mpr (List.length_eq_zero_iff.mp (hlen.trans hn)))]
    · rw [if_neg hn, if_neg, sgxSha256Msg_of_le]
      · rw [Workload.length_concatHashs]
        exact encMalloc_le (by_contra fun ha => hfiles ⟨hn, ha⟩)
      · intro he
        rw [List.isEmpty_iff.mp he] at hlen
        exact hn hlen.symm

theorem verifyWorkload_refused {status : CrustStatus}
    (h : verifyWorkload sha256 mem verify env wl doc key = some (.refused status)) :
    status ≠ .success := by
  unfold verifyWorkload at h
  dsimp only at h
  split at h
  · cases h
  split at h
  · cases h
    decide
  split at h
  · cases h
    decide
  split at h
  · cases h
    decide
  split_ifs at h <;> cases h <;> decide

theorem verifyWorkload_verified {key' : PubKey}
    (h : verifyWorkload sha256 mem verify env wl doc key = some (.verified key')) :
    ∃ hs sig, Workload.fileHashs wl.checkedFiles = some hs ∧
      signatureOf mem env doc = some sig ∧
      verify key (sigbuf key doc
        (rootHash sha256 wl.srdPath2hashs.isEmpty (Workload.srdHashs mem wl.srdPath2hashs))
        (rootHash sha256 hs.isEmpty hs)) sig = true := by
  unfold verifyWorkload at h
  dsimp only at h
  split at h
  · cases h
  rename_i srdRoot filesRoot hroots
  obtain ⟨hs, hhs, rfl, rfl⟩ := genWorkloadInfo_roots hroots
  split at h
  · cases h
  split at h
  · cases h
  split at h
  · cases h
  rename_i sig hsig
  split at h
  · cases h
  rename_i hv
  exact ⟨hs, sig, hhs, hsig, not_not.mp hv⟩

theorem checkDocument_refused {status : CrustStatus} {wl' : Workload τ}
    (h : checkDocument sha256 mem verify env tagOf wl doc = some (.refused status, wl')) :
    status ≠ .success := by
  unfold checkDocument at h
  split at h
  · cases h
    decide
  split at h
  · cases h
    decide
  split at h
  · cases h
  · rename_i v hv
    cases h
    exact verifyWorkload_refused hv

theorem checkDocument_verified {key' : PubKey} {wl' : Workload τ}
    (h : checkDocument sha256 mem verify env tagOf wl doc = some (.verified key', wl')) :
    ∃ key, pubKeyOf mem env doc = some key ∧
      verifyWorkload sha256 mem verify env (restoreWorkload env tagOf wl doc).2 doc key =
        some (.verified key') := by
  unfold checkDocument at h
  split at h
  · cases h
  rename_i key hkey
  refine ⟨key, hkey, ?_⟩
  split at h
  · cases h
  rename_i wl₁ hr
  rw [hr]
  split at h
  · cases h
  rename_i v hv
  cases h
  exact hv

theorem restoreDocument_success {reply : Reply} {wl' : Workload τ}
    (h : restoreDocument sha256 mem verify tagOf env wl doc = some (reply, wl'))
    (hr : reply.status = .success) :
    ∃ key key', pubKeyOf mem env doc = some key ∧
      verifyWorkload sha256 mem verify env (restoreWorkload env tagOf wl doc).2 doc key =
        some (.verified key') := by
  unfold restoreDocument at h
  split at h
  · cases h
  · rename_i status wl₁ hc
    cases h
    exact absurd hr (checkDocument_refused hc)
  · rename_i key' wl₁ hc
    obtain ⟨key, hkey, hv⟩ := checkDocument_verified hc
    exact ⟨key, key', hkey, hv⟩

theorem Accepts.verified {s : State τ} {c : Call}
    (h : Accepts sha256 mem verify tagOf s c doc key sig) :
    ∃ hs, Workload.fileHashs (restored c.env tagOf s doc).checkedFiles = some hs ∧
      verify key (sigbuf key doc
        (rootHash sha256 (restored c.env tagOf s doc).srdPath2hashs.isEmpty
          (Workload.srdHashs mem (restored c.env tagOf s doc).srdPath2hashs))
        (rootHash sha256 hs.isEmpty hs)) sig = true := by
  obtain ⟨⟨reply, s'⟩, hcall, hstatus⟩ := Option.map_eq_some_iff.mp h.success
  have hload := h.loads
  unfold Loads at hload
  unfold idRestoreFromUpgrade at hcall
  dsimp only at hcall hstatus
  split at hcall
  · cases hcall
    cases hstatus
  rw [if_neg (by simp [h.last]), hload] at hcall
  dsimp only at hcall
  split at hcall
  · cases hcall
  rename_i reply' wl' hdoc
  cases hcall
  obtain ⟨k, k', hk, hv⟩ := restoreDocument_success hdoc hstatus
  obtain rfl : key = k := Option.some.inj (h.pubKey.symm.trans hk)
  obtain ⟨hs, sig', hhs, hsig, hver⟩ := verifyWorkload_verified hv
  obtain rfl : sig = sig' := Option.some.inj (h.signature.symm.trans hsig)
  exact ⟨hs, hhs, hver⟩

theorem sigbuf_injective {srdRoot srdRoot' filesRoot filesRoot' : Hash}
    (h : sigbuf key doc₁ srdRoot filesRoot = sigbuf key doc₂ srdRoot' filesRoot') :
    heightText doc₁ ++ hashText doc₁ = heightText doc₂ ++ hashText doc₂ ∧
      srdRoot = srdRoot' ∧ filesRoot = filesRoot' := by
  unfold sigbuf at h
  obtain ⟨h, hfiles⟩ := List.append_inj' h (filesRoot.property.trans filesRoot'.property.symm)
  obtain ⟨h, hsrd⟩ := List.append_inj' h (srdRoot.property.trans srdRoot'.property.symm)
  rw [List.append_assoc, List.append_assoc] at h
  exact ⟨List.append_cancel_left h, Subtype.ext hsrd, Subtype.ext hfiles⟩

/-- Two documents accepted under one key and signature agree on the texts in front of the
roots, on the G hashes and on the file hashes. -/
theorem accepted_documents_agree {s₁ s₂ : State τ} {c₁ c₂ : Call}
    (h₁ : Accepts sha256 mem₁ verify tagOf s₁ c₁ doc₁ key sig)
    (h₂ : Accepts sha256 mem₂ verify tagOf s₂ c₂ doc₂ key sig)
    (hverify : ∀ m m', verify key m sig = true → verify key m' sig = true → m = m')
    (hsha : CollisionFree sha256 (rootMessages mem₁ (restored c₁.env tagOf s₁ doc₁) ++
      rootMessages mem₂ (restored c₂.env tagOf s₂ doc₂))) :
    heightText doc₁ ++ hashText doc₁ = heightText doc₂ ++ hashText doc₂ ∧
      ((hashText doc₁).length = (hashText doc₂).length →
        heightText doc₁ = heightText doc₂ ∧ hashText doc₁ = hashText doc₂) ∧
      Workload.srdHashs mem₁ (restored c₁.env tagOf s₁ doc₁).srdPath2hashs =
        Workload.srdHashs mem₂ (restored c₂.env tagOf s₂ doc₂).srdPath2hashs ∧
      (restored c₁.env tagOf s₁ doc₁).checkedFiles.map (fun f => f.json.get fileHash) =
        (restored c₂.env tagOf s₂ doc₂).checkedFiles.map (fun f => f.json.get fileHash) := by
  obtain ⟨hs₁, hhs₁, hv₁⟩ := h₁.verified
  obtain ⟨hs₂, hhs₂, hv₂⟩ := h₂.verified
  obtain ⟨htext, hsrd, hfiles⟩ := sigbuf_injective (hverify _ _ hv₁ hv₂)
  refine ⟨htext, fun hlen => List.append_inj' htext hlen, ?_, ?_⟩
  · refine rootHash_injective hsha (by simp [rootMessages]) (by simp [rootMessages]) ?_ ?_ hsrd
    all_goals
      intro he
      rw [List.isEmpty_iff.mp he]
      rfl
  · have hmem₁ : Workload.concatHashs hs₁ ∈ rootMessages mem₁ (restored c₁.env tagOf s₁ doc₁) ++
        rootMessages mem₂ (restored c₂.env tagOf s₂ doc₂) := by simp [rootMessages, hhs₁]
    have hmem₂ : Workload.concatHashs hs₂ ∈ rootMessages mem₁ (restored c₁.env tagOf s₁ doc₁) ++
        rootMessages mem₂ (restored c₂.env tagOf s₂ doc₂) := by simp [rootMessages, hhs₂]
    rw [Workload.map_fileHash hhs₁, Workload.map_fileHash hhs₂,
      rootHash_injective hsha hmem₁ hmem₂ List.isEmpty_iff.mp List.isEmpty_iff.mp hfiles]

end

/-! ### One signature, two documents -/

def signerKey : PubKey :=
  ⟨hexPairs (str "c6b8f1b0a7f85977acc74c950f401893" ++ str "208b62efdfe572dac10772c40a3b5016"
    ++ str "868635a0aa5a6f7e44d0721abc2758a6" ++ str "4a445990281c0f7b127978f935377444"), by decide +kernel⟩

def signerSig : Signature :=
  ⟨hexPairs (str "f9592c4700e3eb159520da458e4b9dc4" ++ str "bfe8cce3fbbee7a16354350cf763b103"
    ++ str "5a5d3125ee5d26695f8716553036520c" ++ str "13f02f856999949c4576a7ce9bfc17c2"), by decide +kernel⟩

def gHash : Bytes := List.replicate 32 0x11
def contentHash : Bytes := List.replicate 32 0x22

def signedMessage : Bytes :=
  signerKey.val ++ str "10000" ++ List.replicate 64 48 ++ (Sha256.sha256 gHash).val ++
    (Sha256.sha256 contentHash).val

def signerVerify : Verify := fun key m sig =>
  decide (key = signerKey ∧ m = signedMessage ∧ sig = signerSig)

/-- A document around the signature; the arguments are what the signature leaves open. -/
def signedDoc (height hash path oldHash oldSize blockNum status : String) : Bytes :=
  str "\x7b\"pub_key\":\"" ++ hexstringSafe signerKey.val ++ str "\",\"block_height\":" ++ str height
    ++ str ",\"block_hash\":\"" ++ str hash ++ List.replicate 64 48
    ++ str "\",\"upgrade_srd\":\x7b\"" ++ str path ++ str "\":[\"" ++ hexstringSafe gHash
    ++ str "\"]\x7d,\"upgrade_file\":[\x7b\"hash\":\"$&JT&$" ++ hexstringSafe contentHash
    ++ str "\",\"old_hash\":\"$&JT&$" ++ str oldHash ++ List.replicate 62 48
    ++ str "\",\"old_size\":" ++ str oldSize ++ str ",\"block_num\":" ++ str blockNum
    ++ str ",\"status\":\"" ++ str status
    ++ str "\"\x7d],\"upgrade_srd_root\":\"" ++ hexstringSafe (Sha256.sha256 gHash).val
    ++ str "\",\"upgrade_file_root\":\"" ++ hexstringSafe (Sha256.sha256 contentHash).val
    ++ str "\",\"upgrade_sig\":\"" ++ hexstringSafe signerSig.val ++ str "\"\x7d"

def lastCall (data : Bytes) : Call := ⟨data, 2000, true, true, quietEnv⟩

def handedOver : Bytes := signedDoc "10000" "" "/srd1" "aa" "5" "1" "101"

/-- The same signature over another size, old hash, block number, status, path and height. -/
def altered : Bytes := signedDoc "1000" "0" "/srd2" "bb" "1099511627776" "2" "111"

structure Unsigned where
  entries : List (Int × Bytes × Int × Bytes)
  srd : List (Bytes × List Bytes)
  height : Int
  deriving DecidableEq

def unsigned (wl : Workload τ) (doc : JSON) : Unsigned where
  entries := wl.checkedFiles.map fun f => (f.oldSize, (f.json.get fileOldHash).toStr,
    (f.json.get fileBlockNum).toInt, f.status.toStr)
  srd := wl.srdPath2hashs
  height := atoi (heightText doc)

structure HandOver where
  status : CrustStatus
  key : Option PubKey
  sig : Option Signature
  msgs : List Bytes
  rest : Unsigned
  deriving DecidableEq

def handOver (data : Bytes) : Option HandOver :=
  (JsonParse.loadBuffer ⟨fun _ _ => 0⟩ (contents 2000 data) data.length).toOption.bind fun doc =>
    (restoreDocument Sha256.sha256 ⟨fun _ _ => 0⟩ signerVerify (fun _ => ()) quietEnv emptyState.wl
      doc).map fun r =>
        ⟨r.1.status, pubKeyOf ⟨fun _ _ => 0⟩ quietEnv doc, signatureOf ⟨fun _ _ => 0⟩ quietEnv doc,
          rootMessages ⟨fun _ _ => 0⟩ (restored quietEnv (fun _ => ()) emptyState doc),
          unsigned (restored quietEnv (fun _ => ()) emptyState doc) doc⟩

theorem accepts_of_handOver {data : Bytes} {msgs : List Bytes} {u : Unsigned}
    (h : handOver data = some ⟨.success, some signerKey, some signerSig, msgs, u⟩) :
    ∃ doc, Accepts Sha256.sha256 ⟨fun _ _ => 0⟩ signerVerify (fun _ => ()) emptyState
        (lastCall data) doc signerKey signerSig ∧
      rootMessages ⟨fun _ _ => 0⟩ (restored quietEnv (fun _ => ()) emptyState doc) = msgs ∧
      unsigned (restored quietEnv (fun _ => ()) emptyState doc) doc = u := by
  obtain ⟨doc, hdoc, h⟩ := Option.bind_eq_some_iff.mp h
  obtain ⟨⟨reply, wl⟩, hrestore, h⟩ := Option.map_eq_some_iff.mp h
  simp only [HandOver.mk.injEq] at h
  obtain ⟨hstatus, hkey, hsig, hmsgs, hu⟩ := h
  have hload : Loads ⟨fun _ _ => 0⟩ emptyState (lastCall data) doc := by
    revert hdoc
    unfold Loads
    change _ → JsonParse.loadBuffer ⟨fun _ _ => 0⟩ (contents 2000 data) data.length = .ok doc
    cases JsonParse.loadBuffer ⟨fun _ _ => 0⟩ (contents 2000 data) data.length with
    | error e => exact fun hdoc => nomatch hdoc
    | ok d =>
      intro hdoc
      cases hdoc
      rfl
  refine ⟨doc, ⟨rfl, hload, ?_, hkey, hsig⟩, hmsgs, hu⟩
  unfold Loads at hload
  unfold idRestoreFromUpgrade
  dsimp only
  rw [if_neg (by simp [lastCall, encMalloc, heapMaxSize]), if_neg (by simp [lastCall]), hload]
  have henv : (lastCall data).env = quietEnv := rfl
  dsimp only
  rw [henv, hrestore, ← hstatus]
  rfl

theorem handOver_both :
    handOver handedOver = some ⟨.success, some signerKey, some signerSig, [gHash, contentHash],
      ⟨[(5, str "aa" ++ List.replicate 62 48, 1, str "101")], [(str "/srd1", [gHash])], 10000⟩⟩ ∧
    handOver altered = some ⟨.success, some signerKey, some signerSig, [gHash, contentHash],
      ⟨[(1099511627776, str "bb" ++ List.replicate 62 48, 2, str "111")],
        [(str "/srd2", [gHash])], 1000⟩⟩ := by
  decide +kernel

theorem handOver_handedOver :
    handOver handedOver = some ⟨.success, some signerKey, some signerSig, [gHash, contentHash],
      ⟨[(5, str "aa" ++ List.replicate 62 48, 1, str "101")], [(str "/srd1", [gHash])], 10000⟩⟩ :=
  handOver_both.1

theorem handOver_altered :
    handOver altered = some ⟨.success, some signerKey, some signerSig, [gHash, contentHash],
      ⟨[(1099511627776, str "bb" ++ List.replicate 62 48, 2, str "111")],
        [(str "/srd2", [gHash])], 1000⟩⟩ :=
  handOver_both.2

theorem signerVerify_unique (m m' : Bytes) (h : signerVerify signerKey m signerSig = true)
    (h' : signerVerify signerKey m' signerSig = true) : m = m' :=
  (of_decide_eq_true h).2.1.trans (of_decide_eq_true h').2.1.symm

theorem collisionFree_signed :
    CollisionFree Sha256.sha256 ([gHash, contentHash] ++ [gHash, contentHash]) :=
  ⟨by decide +kernel, by decide +kernel⟩

theorem accepted_documents_agree_signed :
    ∃ doc₁ doc₂, Loads ⟨fun _ _ => 0⟩ emptyState (lastCall handedOver) doc₁ ∧
      Loads ⟨fun _ _ => 0⟩ emptyState (lastCall altered) doc₂ ∧
      heightText doc₁ ++ hashText doc₁ = heightText doc₂ ++ hashText doc₂ := by
  obtain ⟨doc₁, h₁, hm₁, -⟩ := accepts_of_handOver handOver_handedOver
  obtain ⟨doc₂, h₂, hm₂, -⟩ := accepts_of_handOver handOver_altered
  have henv : ∀ data, (lastCall data).env = quietEnv := fun _ => rfl
  have hagree := accepted_documents_agree h₁ h₂ signerVerify_unique (by
    rw [henv, henv, hm₁, hm₂]
    exact collisionFree_signed)
  exact ⟨doc₁, doc₂, h₁.loads, h₂.loads, hagree.1⟩

theorem accepted_documents_differ :
    ∃ doc₁ doc₂,
      Accepts Sha256.sha256 ⟨fun _ _ => 0⟩ signerVerify (fun _ => ()) emptyState
        (lastCall handedOver) doc₁ signerKey signerSig ∧
      Accepts Sha256.sha256 ⟨fun _ _ => 0⟩ signerVerify (fun _ => ()) emptyState
        (lastCall altered) doc₂ signerKey signerSig ∧
      (∀ m m', signerVerify signerKey m signerSig = true →
        signerVerify signerKey m' signerSig = true → m = m') ∧
      CollisionFree Sha256.sha256
        (rootMessages ⟨fun _ _ => 0⟩ (restored quietEnv (fun _ => ()) emptyState doc₁) ++
          rootMessages ⟨fun _ _ => 0⟩ (restored quietEnv (fun _ => ()) emptyState doc₂)) ∧
      unsigned (restored quietEnv (fun _ => ()) emptyState doc₁) doc₁ =
        ⟨[(5, str "aa" ++ List.replicate 62 48, 1, str "101")], [(str "/srd1", [gHash])], 10000⟩ ∧
      unsigned (restored quietEnv (fun _ => ()) emptyState doc₂) doc₂ =
        ⟨[(1099511627776, str "bb" ++ List.replicate 62 48, 2, str "111")],
          [(str "/srd2", [gHash])], 1000⟩ := by
  obtain ⟨doc₁, h₁, hm₁, hu₁⟩ := accepts_of_handOver handOver_handedOver
  obtain ⟨doc₂, h₂, hm₂, hu₂⟩ := accepts_of_handOver handOver_altered
  refine ⟨doc₁, doc₂, h₁, h₂, signerVerify_unique, ?_, hu₁, hu₂⟩
  rw [hm₁, hm₂]
  exact collisionFree_signed

end CrustSworker.Upgrade

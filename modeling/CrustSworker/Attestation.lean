import CrustSworker.HexCodec
import CrustSworker.JsonLayout
import CrustSworker.TextSearch
import CrustSworker.Workload

/-!
# The identity of the enclave

`id_verify_and_upload_identity` gets three texts from the host: the certificate chain and the
signature from the header of the attestation report, and the report itself. It decodes the chain,
cuts it into certificates, verifies the chain and the signature, finds its own key and measurement
in the quote, and signs what it has verified together with the account. What becomes of
certificates, keys and quotes inside the cryptographic libraries is a parameter.
-/

namespace CrustSworker.Attestation

open TextSearch

/-! ### `url_decode` -/

def isSpace (c : UInt8) : Bool := c = 32 || (9 ≤ c && c ≤ 13)

/-- `strtoul(s, &e, 16)` on two characters; `none` when something is left at `e`. -/
def strtoulHex (a b : UInt8) : Option UInt8 :=
  if a = 0 then some 0
  else if b = 0 then
    if JsonParse.isHexDigit a then some (UInt8.ofNat (charToInt a)) else none
  else if ¬ JsonParse.isHexDigit b then none
  else if JsonParse.isHexDigit a then some (UInt8.ofNat (charToInt a * 16 + charToInt b))
  else if isSpace a ∨ a = 43 then some (UInt8.ofNat (charToInt b))
  else if a = 45 then some (0 - UInt8.ofNat (charToInt b))
  else none

def urlDecode : Bytes → Option Bytes
  | [] => some []
  | c :: s =>
    if c = 43 then (urlDecode s).map (32 :: ·)
    else if c = 37 then
      match s with
      | a :: b :: t => (strtoulHex a b).bind fun v => (urlDecode t).map (v :: ·)
      | _ => none
    else (urlDecode s).map (c :: ·)

/-! ### The cryptographic libraries -/

/-- OpenSSL behind its functions; `certVerify` is `cert_verify` of a chain against the root
certificate, `sha256Verify` gets the message, the signature and the key. -/
structure Ssl (Cert Key : Type) where
  loadCert : Bytes → Option Cert
  certVerify : List Cert → Bool
  getPubkey : Cert → Option Key
  sha256Verify : Bytes → Bytes → Key → Bool
  base64Decode : Bytes → Option Bytes

/-- What the allocator and the SGX library answer. -/
structure UploadEnv where
  mallocAccountId : Bool
  mallocCertar : Bool
  stackBuild : Bool
  mallocQuote : Bool
  openContext : Bool
  mallocOrgData : Bool
  ecdsaSign : Bytes → Option Signature

inductive IasStatus where
  | success
  | badCertificate
  | badSignature
  | badBody
  | internalError
  | getpubkeyFailed
  | reportdataNe
  | badMeasurement
  | signPubkeyFailed
  deriving DecidableEq

/-- The ways to end without an upload. In `unsetFreed` the cleanup frees the pointer to the quote,
which has not been set. -/
inductive Ended where
  | returned (status : IasStatus)
  | unsetFreed (status : IasStatus)
  | thrown
  | outOfBounds
  deriving DecidableEq

/-! ### The certificates -/

/-- The text that a C function reads. -/
def cString (s : Bytes) : Bytes := s.takeWhile fun c => decide (c ≠ 0)

def beginMark : Bytes := str "-----BEGIN"

section
variable {Cert Key : Type} (ssl : Ssl Cert Key)

def certLoop (certchain : Bytes) : Nat → Nat → Bytes → List Cert → Option (Bytes × List Cert)
  | 0, _, _, _ => none
  | fuel + 1, cstart, certchain1, certvec =>
    let cend := find beginMark certchain (cstart + 1)
    let len := cend.getD certchain.length - cstart
    let text := (certchain.drop cstart).take len
    let certchain1 := if certchain1 = [] then text else certchain1
    match ssl.loadCert (cString text) with
    | none => none
    | some cert =>
      match cend with
      | none => some (certchain1, certvec ++ [cert])
      | some cend => certLoop certchain fuel cend certchain1 (certvec ++ [cert])

def certificates (certchain : Bytes) : Except Ended (Bytes × List Cert) :=
  if certchain = [] then .error (.returned .badCertificate)
  else
    match urlDecode certchain with
    | none => .error (.returned .badCertificate)
    | some certchain =>
      match certLoop ssl certchain certchain.length 0 [] [] with
      | none => .error (.returned .badCertificate)
      | some certs => .ok certs

/-! ### The signature of the report -/

def verifySignature (env : UploadEnv) (certvec : List Cert) (iasSig isvBody : Bytes) :
    Except Ended Unit :=
  if ¬ encMalloc env.mallocCertar (8 * (certvec.length + 1)) then .error (.returned .internalError)
  else if ¬ env.stackBuild then .error (.unsetFreed .internalError)
  else if ¬ ssl.certVerify certvec then .error (.unsetFreed .badCertificate)
  else if iasSig = [] then .error (.unsetFreed .badSignature)
  else
    match ssl.base64Decode iasSig with
    | none => .error (.unsetFreed .badSignature)
    | some sig =>
      match certvec.head?.bind ssl.getPubkey with
      | none => .error (.unsetFreed .getpubkeyFailed)
      | some pkey =>
        if ssl.sha256Verify isvBody sig pkey then .ok () else .error (.unsetFreed .badSignature)

/-! ### The quote -/

def quoteTag : Bytes := str "\"isvEnclaveQuoteBody\":\""

def sizeofSgxQuote : Nat := 436
def mrEnclaveOffset : Nat := 112
def reportDataOffset : Nat := 368

def substr (s : Bytes) (pos len : Nat) : Option Bytes :=
  if s.length < pos then none else some ((s.drop pos).take len)

def findInt (pat s : Bytes) (pos : Nat) : Int :=
  match find pat s pos with
  | none => -1
  | some p => toInt32 p

def iasQuoteBody (isvBody : Bytes) : Option Bytes :=
  let quoteSPos := findInt quoteTag isvBody 0
  let quoteSPos := findInt (str "\":\"") isvBody (sizeT quoteSPos) + 3
  let quoteEPos := toInt32 isvBody.length - 2
  substr isvBody (sizeT quoteSPos) (sizeT (quoteEPos - quoteSPos))

def quoteField (decoded : Bytes) (offset len : Nat) : Bytes :=
  ((decoded ++ List.replicate (sizeofSgxQuote - decoded.length) 0).drop offset).take len

def verifyQuote (env : UploadEnv) (pubKey : PubKey) (mrEnclave : ByteArr 32) (isvBody : Bytes) :
    Except Ended Unit :=
  match iasQuoteBody isvBody with
  | none => .error .thrown
  | some body =>
    match ssl.base64Decode body with
    | none => .error (.unsetFreed .badBody)
    | some decoded =>
      if ¬ encMalloc env.mallocQuote sizeofSgxQuote then .error (.returned .success)
      else if sizeofSgxQuote < decoded.length then .error .outOfBounds
      else if quoteField decoded reportDataOffset 64 ≠ pubKey.val then
        .error (.returned .reportdataNe)
      else if quoteField decoded mrEnclaveOffset 32 ≠ mrEnclave.val then
        .error (.returned .badMeasurement)
      else .ok ()

/-! ### The identity -/

def beginCertificate : Bytes := str "-----BEGIN CERTIFICATE-----\n"
def endCertificate : Bytes := str "\n-----END CERTIFICATE-----"

def findSize (pat s : Bytes) : Nat := (find pat s 0).getD (2 ^ 64 - 1)

def replaceLoop (org det : Bytes) : Nat → Bytes → Nat → Bytes
  | 0, data, _ => data
  | fuel + 1, data, epos =>
    match find org data epos with
    | none => data
    | some spos =>
      replaceLoop org det fuel (data.take spos ++ det ++ data.drop (spos + org.length))
        (spos + det.length)

def certificateText (certchain1 : Bytes) : Option Bytes :=
  let spos := (findSize beginCertificate certchain1 + beginCertificate.length) % 2 ^ 64
  let epos := findSize endCertificate certchain1
  (substr certchain1 spos (sizeT ((epos : Int) - spos))).map fun text =>
    replaceLoop (str "\n") [] (text.length + 1) text 0

structure Identity where
  iasCert : Bytes
  iasSig : Bytes
  isvBody : Bytes
  accountId : Bytes
  sig : Signature

def Identity.idJson (i : Identity) : JSON :=
  let idJson := JSON.null.put (str "ias_cert") (.string i.iasCert)
  let idJson := idJson.put (str "ias_sig") (.string i.iasSig)
  let idJson := idJson.put (str "isv_body") (.string i.isvBody)
  let idJson := idJson.put (str "account_id") (.string i.accountId)
  idJson.put (str "sig") (.string (hexstringSafe i.sig.val))

def Identity.idStr (floatText : Bytes → Bytes → Bytes) (i : Identity) : Bytes :=
  i.idJson.dump floatText

def orgData (iasCert iasSig isvBody accountIdU : Bytes) : Bytes :=
  iasCert ++ iasSig ++ isvBody ++ accountIdU

def accountIdU (env : UploadEnv) (accountId : Bytes) : Option Bytes :=
  if encMalloc env.mallocAccountId (accountId.length / 2) then hexStringToBytes accountId else none

def orgDataSize (iasCert iasSig isvBody accountId : Bytes) : Nat :=
  iasCert.length + iasSig.length + isvBody.length + accountId.length / 2

def signIdentity (env : UploadEnv) (accountId certchain1 iasSig isvBody : Bytes) :
    Except Ended Identity :=
  if ¬ env.openContext then .error (.returned .signPubkeyFailed)
  else
    match certificateText certchain1 with
    | none => .error .thrown
    | some iasCert =>
      let idU := accountIdU env accountId
      let size := orgDataSize iasCert iasSig isvBody accountId
      let orgDataLen := size % 2 ^ 32
      if ¬ encMalloc env.mallocOrgData orgDataLen then .error (.returned .success)
      else if orgDataLen < size ∨ (idU = none ∧ 0 < accountId.length / 2) then .error .outOfBounds
      else
        match env.ecdsaSign (orgData iasCert iasSig isvBody (idU.getD [])) with
        | none => .error (.returned .signPubkeyFailed)
        | some sig => .ok ⟨iasCert, iasSig, isvBody, accountId, sig⟩

structure EnclaveId where
  pubKey : PubKey
  mrEnclave : ByteArr 32
  accountId : Bytes

/-- The identity that is uploaded, for the three texts of the host. -/
def idVerifyAndUploadIdentity (env : UploadEnv) (enclave : EnclaveId)
    (certchain iasSig isvBody : Bytes) : Except Ended Identity :=
  (certificates ssl certchain).bind fun certs =>
    (verifySignature ssl env certs.2 iasSig isvBody).bind fun _ =>
      (verifyQuote ssl env enclave.pubKey enclave.mrEnclave isvBody).bind fun _ =>
        signIdentity env enclave.accountId certs.1 iasSig isvBody

end

/-! ### Decoding -/

theorem urlDecode_ne_nil {s t : Bytes} (hs : s ≠ []) (h : urlDecode s = some t) : t ≠ [] := by
  obtain ⟨c, s, rfl⟩ := List.exists_cons_of_ne_nil hs
  rw [urlDecode.eq_def] at h
  dsimp only at h
  split_ifs at h
  · obtain ⟨u, -, rfl⟩ := Option.map_eq_some_iff.mp h
    exact List.cons_ne_nil _ _
  · split at h
    · obtain ⟨v, -, hv⟩ := Option.bind_eq_some_iff.mp h
      obtain ⟨u, -, rfl⟩ := Option.map_eq_some_iff.mp hv
      exact List.cons_ne_nil _ _
    · cases h
  · obtain ⟨u, -, rfl⟩ := Option.map_eq_some_iff.mp h
    exact List.cons_ne_nil _ _

/-- The encodings of a text: any character may be written as a percent sign and two digits, the
plus and the percent sign must be, and a space may be written as a plus. -/
inductive UrlEncoded : Bytes → Bytes → Prop
  | nil : UrlEncoded [] []
  | plain {c : UInt8} {s t : Bytes} (hplus : c ≠ 43) (hpercent : c ≠ 37) (h : UrlEncoded s t) :
      UrlEncoded (c :: s) (c :: t)
  | space {s t : Bytes} (h : UrlEncoded s t) : UrlEncoded (32 :: s) (43 :: t)
  | percent {a b : UInt8} {s t : Bytes} (ha : JsonParse.isHexDigit a = true)
      (hb : JsonParse.isHexDigit b = true) (h : UrlEncoded s t) :
      UrlEncoded (UInt8.ofNat (charToInt a * 16 + charToInt b) :: s) (37 :: a :: b :: t)

theorem strtoulHex_digits {a b : UInt8} (ha : JsonParse.isHexDigit a = true)
    (hb : JsonParse.isHexDigit b = true) :
    strtoulHex a b = some (UInt8.ofNat (charToInt a * 16 + charToInt b)) := by
  have hzero : JsonParse.isHexDigit 0 = false := by decide
  have hne : ∀ c, JsonParse.isHexDigit c = true → c ≠ 0 := by
    rintro c hc rfl
    rw [hzero] at hc
    cases hc
  rw [strtoulHex, if_neg (hne a ha), if_neg (hne b hb), if_neg (not_not.mpr hb), if_pos ha]

theorem UrlEncoded.decode {s t : Bytes} (h : UrlEncoded s t) : urlDecode t = some s := by
  induction h with
  | nil => rfl
  | plain hplus hpercent _ ih =>
    rw [urlDecode.eq_def]
    dsimp only
    rw [if_neg hplus, if_neg hpercent, ih, Option.map_some]
  | space _ ih =>
    rw [urlDecode.eq_def]
    dsimp only
    rw [if_pos rfl, ih, Option.map_some]
  | percent ha hb _ ih =>
    rw [urlDecode.eq_def]
    dsimp only
    rw [if_neg (by decide), if_pos rfl, strtoulHex_digits ha hb, ih, Option.bind_some,
      Option.map_some]

def urlKept (c : UInt8) : Bool :=
  (48 ≤ c && c ≤ 57) || (65 ≤ c && c ≤ 90) || (97 ≤ c && c ≤ 122) || c = 45 || c = 46 || c = 95 ||
    c = 126

def urlEncode (s : Bytes) : Bytes :=
  s.flatMap fun c =>
    if urlKept c then [c] else [37, hextable (c.toNat / 16), hextable (c.toNat % 16)]

theorem isHexDigit_hextable {n : Nat} (hn : n < 16) : JsonParse.isHexDigit (hextable n) = true := by
  interval_cases n <;> decide

theorem urlEncoded_urlEncode (s : Bytes) : UrlEncoded s (urlEncode s) := by
  induction s with
  | nil => exact .nil
  | cons c s ih =>
    have hcons : urlEncode (c :: s) =
        (if urlKept c then [c] else [37, hextable (c.toNat / 16), hextable (c.toNat % 16)]) ++
          urlEncode s := List.flatMap_cons
    rw [hcons]
    split_ifs with hkept
    · refine .plain ?_ ?_ ih
      · rintro rfl
        exact absurd hkept (by decide)
      · rintro rfl
        exact absurd hkept (by decide)
    · have hlt := c.toNat_lt
      have hback : UInt8.ofNat (charToInt (hextable (c.toNat / 16)) * 16 +
          charToInt (hextable (c.toNat % 16))) = c := by
        rw [JsonParse.charToInt_hextable (by omega), JsonParse.charToInt_hextable (by omega),
          Nat.div_add_mod', UInt8.ofNat_toNat]
      have henc : UrlEncoded _ (37 :: hextable (c.toNat / 16) :: hextable (c.toNat % 16) ::
          urlEncode s) :=
        .percent (isHexDigit_hextable (by omega)) (isHexDigit_hextable (by omega)) ih
      rwa [hback] at henc

/-! ### Cutting the chain -/

section
variable {Cert Key : Type} {ssl : Ssl Cert Key}

def loadAll (ssl : Ssl Cert Key) : List Bytes → Option (List Cert)
  | [] => some []
  | pem :: pems =>
    (ssl.loadCert (cString pem)).bind fun cert => (loadAll ssl pems).map (cert :: ·)

theorem drop_cons {certchain s : Bytes} {cstart : Nat} {c : UInt8}
    (h : certchain.drop cstart = c :: s) :
    cstart + 1 ≤ certchain.length ∧ certchain.drop (cstart + 1) = s := by
  constructor
  · by_contra hge
    rw [List.drop_eq_nil_of_le (by omega)] at h
    cases h
  · rw [← List.drop_drop, h, List.drop_succ_cons, List.drop_zero]

/-- By induction on the pieces; every piece takes one round. -/
theorem certLoop_cut {certchain s : Bytes} {pems : List Bytes} (h : CutAt beginMark s pems)
    {cstart fuel : Nat} (hs : certchain.drop cstart = s) (hfuel : s.length ≤ fuel)
    (certchain1 : Bytes) (certvec : List Cert) :
    certLoop ssl certchain fuel cstart certchain1 certvec =
      (loadAll ssl pems).map fun certs =>
        (if certchain1 = [] then pems.head?.getD [] else certchain1, certvec ++ certs) := by
  induction h generalizing cstart fuel certchain1 certvec with
  | @last c s hnone =>
    obtain ⟨fuel, rfl⟩ : ∃ n, fuel = n + 1 := ⟨fuel - 1, by simp at hfuel; omega⟩
    obtain ⟨hcstart, hdrop⟩ := drop_cons hs
    have hfind : find beginMark certchain (cstart + 1) = none := by
      rw [find, if_pos hcstart, hdrop, (search_none (by decide)).mpr hnone, Option.map_none]
    have hlen : certchain.length - cstart = (c :: s).length := by rw [← hs, List.length_drop]
    have htext : (certchain.drop cstart).take (certchain.length - cstart) = c :: s := by
      rw [hlen, hs, List.take_length]
    rw [certLoop]
    simp only [hfind, Option.getD_none, htext, loadAll]
    cases ssl.loadCert (cString (c :: s)) with
    | none => rfl
    | some cert => rfl
  | @cut c s pre rest pems hfirst hmore ih =>
    obtain ⟨fuel, rfl⟩ : ∃ n, fuel = n + 1 := ⟨fuel - 1, by simp at hfuel; omega⟩
    obtain ⟨hcstart, hdrop⟩ := drop_cons hs
    have hfind : find beginMark certchain (cstart + 1) = some (pre.length + (cstart + 1)) :=
      find_complete hcstart (by rwa [hdrop])
    have hlen : pre.length + (cstart + 1) - cstart = pre.length + 1 := by omega
    have htext : (certchain.drop cstart).take (pre.length + 1) = c :: pre := by
      rw [hs, List.take_succ_cons, hfirst.split, List.append_assoc, List.take_left]
    have hnext : certchain.drop (pre.length + (cstart + 1)) = beginMark ++ rest := by
      rw [Nat.add_comm, ← List.drop_drop, hdrop, hfirst.split, List.append_assoc, List.drop_left]
    have hshort : (beginMark ++ rest).length ≤ fuel := by
      have hsplit := congrArg List.length hfirst.split
      simp only [List.length_append, List.length_cons] at hsplit hfuel ⊢
      omega
    rw [certLoop]
    simp only [hfind, Option.getD_some, hlen, htext, loadAll]
    cases ssl.loadCert (cString (c :: pre)) with
    | none => rfl
    | some cert =>
      dsimp only
      rw [ih hnext hshort, Option.bind_some, Option.map_map]
      refine congrArg (fun f => (loadAll ssl pems).map f) (funext fun certs => ?_)
      have hset : (if certchain1 = [] then c :: pre else certchain1) ≠ [] := by
        split_ifs with h
        · exact List.cons_ne_nil _ _
        · exact h
      rw [if_neg hset, List.append_assoc, List.singleton_append]
      rfl

theorem certificates_ok_iff {certchain certchain1 : Bytes} {certs : List Cert} :
    certificates ssl certchain = .ok (certchain1, certs) ↔
      ∃ decoded pems, urlDecode certchain = some decoded ∧ CutAt beginMark decoded pems ∧
        loadAll ssl pems = some certs ∧ pems.head? = some certchain1 := by
  unfold certificates
  constructor
  · intro h
    split_ifs at h with hnil
    split at h
    · cases h
    · rename_i decoded hdecoded
      split at h
      · cases h
      · rename_i found hfound
        cases h
        obtain ⟨pems, hcut⟩ := exists_cutAt (by decide : beginMark ≠ [])
          (urlDecode_ne_nil hnil hdecoded)
        rw [certLoop_cut hcut List.drop_zero le_rfl] at hfound
        obtain ⟨certs, hcerts, hpair⟩ := Option.map_eq_some_iff.mp hfound
        obtain ⟨rfl, rfl⟩ := Prod.mk.inj hpair
        obtain ⟨pem, pems, rfl⟩ := List.exists_cons_of_ne_nil hcut.ne_nil
        exact ⟨decoded, pem :: pems, hdecoded, hcut, hcerts, rfl⟩
  · rintro ⟨decoded, pems, hdecoded, hcut, hcerts, hhead⟩
    have hne : certchain ≠ [] := by
      rintro rfl
      cases hdecoded
      cases hcut
    rw [if_neg hne, hdecoded]
    dsimp only
    rw [certLoop_cut hcut List.drop_zero le_rfl, hcerts, hhead]
    rfl

end

/-! ### What an upload rests on -/

/-- The chain ends at the root certificate, the first certificate's key has signed the report, and
the quote of the report names this enclave. -/
structure Attested {Cert Key : Type} (ssl : Ssl Cert Key) (enclave : EnclaveId) (certs : List Cert)
    (iasSig isvBody quoteText : Bytes) : Prop where
  rooted : ssl.certVerify certs = true
  signed : ∃ pkey sig, certs.head?.bind ssl.getPubkey = some pkey ∧ iasSig ≠ [] ∧
    ssl.base64Decode iasSig = some sig ∧ ssl.sha256Verify isvBody sig pkey = true
  ours : ∃ quote, ssl.base64Decode quoteText = some quote ∧ quote.length ≤ sizeofSgxQuote ∧
    quoteField quote reportDataOffset 64 = enclave.pubKey.val ∧
    quoteField quote mrEnclaveOffset 32 = enclave.mrEnclave.val

structure UploadEnv.Serves (env : UploadEnv) (enclave : EnclaveId) (certNum size : Nat) : Prop where
  certar : encMalloc env.mallocCertar (8 * (certNum + 1)) = true
  stack : env.stackBuild = true
  quote : encMalloc env.mallocQuote sizeofSgxQuote = true
  context : env.openContext = true
  accountId : 2 ≤ enclave.accountId.length → accountIdU env enclave.accountId ≠ none
  orgData : encMalloc env.mallocOrgData size = true

def signed (env : UploadEnv) (enclave : EnclaveId) (iasCert iasSig isvBody : Bytes) :
    Option Identity :=
  (env.ecdsaSign (orgData iasCert iasSig isvBody ((accountIdU env enclave.accountId).getD []))).map
    fun sig => ⟨iasCert, iasSig, isvBody, enclave.accountId, sig⟩

theorem except_bind_ok_iff {ε α β : Type} {x : Except ε α} {f : α → Except ε β} {b : β} :
    x.bind f = .ok b ↔ ∃ a, x = .ok a ∧ f a = .ok b := by
  cases x with
  | error e => exact ⟨nofun, fun ⟨_, h, _⟩ => nomatch h⟩
  | ok a => exact ⟨fun h => ⟨a, rfl, h⟩, fun ⟨_, h, hf⟩ => Except.ok.inj h ▸ hf⟩

section
variable {Cert Key : Type} {ssl : Ssl Cert Key} {env : UploadEnv} {enclave : EnclaveId}
variable {certs : List Cert} {iasSig isvBody : Bytes}

theorem verifySignature_ok_iff {u : Unit} :
    verifySignature ssl env certs iasSig isvBody = .ok u ↔
      encMalloc env.mallocCertar (8 * (certs.length + 1)) = true ∧ env.stackBuild = true ∧
        ssl.certVerify certs = true ∧ ∃ pkey sig, certs.head?.bind ssl.getPubkey = some pkey ∧
          iasSig ≠ [] ∧ ssl.base64Decode iasSig = some sig ∧
          ssl.sha256Verify isvBody sig pkey = true := by
  unfold verifySignature
  constructor
  · intro h
    split_ifs at h with hcertar hstack hroot hne
    split at h
    · cases h
    · rename_i sig hsig
      split at h
      · cases h
      · rename_i pkey hpkey
        split_ifs at h with hverify
        exact ⟨hcertar, hstack, hroot, pkey, sig, hpkey, hne, hsig,
          hverify⟩
  · rintro ⟨hcertar, hstack, hroot, pkey, sig, hpkey, hne, hsig, hverify⟩
    rw [if_neg (not_not.mpr hcertar), if_neg (not_not.mpr hstack), if_neg (not_not.mpr hroot),
      if_neg hne, hsig, hpkey]
    exact if_pos hverify

theorem verifyQuote_ok_iff {pubKey : PubKey} {mrEnclave : ByteArr 32} {u : Unit} :
    verifyQuote ssl env pubKey mrEnclave isvBody = .ok u ↔
      encMalloc env.mallocQuote sizeofSgxQuote = true ∧ ∃ quoteText quote,
        iasQuoteBody isvBody = some quoteText ∧ ssl.base64Decode quoteText = some quote ∧
        quote.length ≤ sizeofSgxQuote ∧ quoteField quote reportDataOffset 64 = pubKey.val ∧
        quoteField quote mrEnclaveOffset 32 = mrEnclave.val := by
  unfold verifyQuote
  constructor
  · intro h
    split at h
    · cases h
    · rename_i text htext
      split at h
      · cases h
      · rename_i quote hquote
        split_ifs at h with hmalloc hlong hkey hmr
        exact ⟨hmalloc, text, quote, htext, hquote, Nat.le_of_not_lt hlong,
          not_not.mp hkey, not_not.mp hmr⟩
  · rintro ⟨hmalloc, text, quote, htext, hquote, hlong, hkey, hmr⟩
    rw [htext]
    dsimp only
    rw [hquote]
    dsimp only
    rw [if_neg (not_not.mpr hmalloc), if_neg (Nat.not_lt.mpr hlong), if_neg (not_not.mpr hkey),
      if_neg (not_not.mpr hmr)]

theorem signIdentity_ok_iff {certchain1 : Bytes} {i : Identity} :
    signIdentity env enclave.accountId certchain1 iasSig isvBody = .ok i ↔
      env.openContext = true ∧ ∃ iasCert, certificateText certchain1 = some iasCert ∧
        encMalloc env.mallocOrgData (orgDataSize iasCert iasSig isvBody enclave.accountId) = true ∧
        (2 ≤ enclave.accountId.length → accountIdU env enclave.accountId ≠ none) ∧
        signed env enclave iasCert iasSig isvBody = some i := by
  unfold signIdentity signed
  constructor
  · intro h
    split_ifs at h with hopen
    split at h
    · cases h
    · rename_i iasCert hcert
      dsimp only at h
      split_ifs at h with hmalloc hbounds
      obtain ⟨hlen, hid⟩ := not_or.mp hbounds
      have hfull : orgDataSize iasCert iasSig isvBody enclave.accountId % 2 ^ 32 =
          orgDataSize iasCert iasSig isvBody enclave.accountId :=
        Nat.le_antisymm (Nat.mod_le _ _) (Nat.le_of_not_lt hlen)
      have hmalloc' : encMalloc env.mallocOrgData
          (orgDataSize iasCert iasSig isvBody enclave.accountId) = true := by
        rw [← hfull]
        exact hmalloc
      refine ⟨hopen, iasCert, hcert, hmalloc', fun hlong hnone => hid ⟨hnone, by omega⟩, ?_⟩
      split at h
      · cases h
      · rename_i sig hsig
        cases h
        rw [hsig, Option.map_some]
  · rintro ⟨hopen, iasCert, hcert, hmalloc, hid, hsigned⟩
    obtain ⟨sig, hsig, rfl⟩ := Option.map_eq_some_iff.mp hsigned
    have hlt : orgDataSize iasCert iasSig isvBody enclave.accountId < 2 ^ 32 :=
      Nat.lt_of_le_of_lt (encMalloc_le hmalloc) (by decide)
    rw [if_neg (not_not.mpr hopen), hcert]
    dsimp only
    have hbounds : ¬ (orgDataSize iasCert iasSig isvBody enclave.accountId <
          orgDataSize iasCert iasSig isvBody enclave.accountId ∨
        (accountIdU env enclave.accountId = none ∧ 0 < enclave.accountId.length / 2)) := by
      rintro (hlt | ⟨hnone, hpos⟩)
      · exact Nat.lt_irrefl _ hlt
      · exact hid (by omega) hnone
    simp only [Nat.mod_eq_of_lt hlt]
    rw [if_neg (not_not.mpr hmalloc), if_neg hbounds, hsig]

theorem uploaded_iff_attested {certchain : Bytes} {i : Identity} :
    idVerifyAndUploadIdentity ssl env enclave certchain iasSig isvBody = .ok i ↔
      ∃ certchain1 certs quoteText iasCert,
        certificates ssl certchain = .ok (certchain1, certs) ∧
        iasQuoteBody isvBody = some quoteText ∧
        Attested ssl enclave certs iasSig isvBody quoteText ∧
        certificateText certchain1 = some iasCert ∧
        env.Serves enclave certs.length (orgDataSize iasCert iasSig isvBody enclave.accountId) ∧
        signed env enclave iasCert iasSig isvBody = some i := by
  unfold idVerifyAndUploadIdentity
  constructor
  · intro h
    obtain ⟨⟨certchain1, certs⟩, hcerts, h⟩ := except_bind_ok_iff.mp h
    obtain ⟨u, hverify, h⟩ := except_bind_ok_iff.mp h
    obtain ⟨v, hquote, h⟩ := except_bind_ok_iff.mp h
    obtain ⟨hcertar, hstack, hroot, hkey⟩ := verifySignature_ok_iff.mp hverify
    obtain ⟨hmalloc, quoteText, quote, htext, hours⟩ := verifyQuote_ok_iff.mp hquote
    obtain ⟨hopen, iasCert, hcert, horg, hid, hsigned⟩ := signIdentity_ok_iff.mp h
    exact ⟨certchain1, certs, quoteText, iasCert, hcerts, htext, ⟨hroot, hkey, quote, hours⟩, hcert,
      ⟨hcertar, hstack, hmalloc, hopen, hid, horg⟩, hsigned⟩
  · rintro ⟨certchain1, certs, quoteText, iasCert, hcerts, htext, hatt, hcert, hserves, hsigned⟩
    obtain ⟨quote, hours⟩ := hatt.ours
    refine except_bind_ok_iff.mpr ⟨(certchain1, certs), hcerts, ?_⟩
    refine except_bind_ok_iff.mpr ⟨(), verifySignature_ok_iff.mpr
      ⟨hserves.certar, hserves.stack, hatt.rooted, hatt.signed⟩, ?_⟩
    refine except_bind_ok_iff.mpr ⟨(), verifyQuote_ok_iff.mpr
      ⟨hserves.quote, quoteText, quote, htext, hours⟩, ?_⟩
    exact signIdentity_ok_iff.mpr
      ⟨hserves.context, iasCert, hcert, hserves.orgData, hserves.accountId, hsigned⟩

end

/-! ### Genuine responses -/

/-- A certificate as text; no dash and no NUL is in its lines. -/
structure Pem where
  body : Bytes
  clean : ∀ c ∈ body, c ≠ 45 ∧ c ≠ 0
  short : body.length < 2 ^ 64

def Pem.text (p : Pem) : Bytes := beginCertificate ++ p.body ++ endCertificate ++ str "\n"

theorem Pem.marked (p : Pem) :
    ∃ x, p.text = beginMark ++ x ∧ Skips beginMark (str "----BEGIN" ++ x) := by
  have hbegin : beginCertificate = beginMark ++ str " CERTIFICATE-----\n" := by decide
  have hdashes : (45 : UInt8) ∉ p.body := fun h => (p.clean 45 h).1 rfl
  refine ⟨str " CERTIFICATE-----\n" ++ p.body ++ endCertificate ++ str "\n", ?_, ?_⟩
  · rw [Pem.text, hbegin]
    simp only [List.append_assoc]
  · have hhead : Skips beginMark (str "----BEGIN" ++ str " CERTIFICATE-----\n") :=
      skips_of_differs (by decide)
    have hlines : Skips beginMark p.body := skips_of_not_mem hdashes
    have hfoot : Skips beginMark (endCertificate ++ str "\n") := skips_of_differs (by decide)
    have hall := (hhead.append hlines).append hfoot
    simp only [List.append_assoc] at hall ⊢
    exact hall

theorem Pem.cString_text (p : Pem) : cString p.text = p.text := by
  have hframe : ∀ c ∈ beginCertificate ++ (endCertificate ++ str "\n"), c ≠ 0 := by
    have hall : (beginCertificate ++ (endCertificate ++ str "\n")).all (· != 0) = true := by decide
    intro c hc
    exact bne_iff_ne.mp (List.all_eq_true.mp hall c hc)
  rw [cString, List.takeWhile_eq_self_iff]
  intro c hc
  refine decide_eq_true ?_
  simp only [Pem.text, List.append_assoc, List.mem_append] at hc
  rcases hc with hc | hc | hc
  · exact hframe c (List.mem_append_left _ hc)
  · exact (p.clean c hc).2
  · exact hframe c (List.mem_append_right _ (List.mem_append.mpr hc))

theorem Pem.firstAt_end (p : Pem) :
    FirstAt endCertificate p.text (beginCertificate ++ p.body) (str "\n") := by
  have hbegin : beginCertificate = str "-----BEGIN CERTIFICATE-----" ++ [10] := by decide
  have hend : endCertificate = 10 :: 45 :: str "----END CERTIFICATE-----" := by decide
  have hlast : endCertificate ++ str "\n" = 10 :: str "-----END CERTIFICATE-----\n" := by decide
  have hdashes : (45 : UInt8) ∉ p.body := fun h => (p.clean 45 h).1 rfl
  have htext : p.text = str "-----BEGIN CERTIFICATE-----" ++
      (10 :: (p.body ++ 10 :: str "-----END CERTIFICATE-----\n")) := by
    rw [Pem.text, hbegin, List.append_assoc _ endCertificate, hlast]
    simp only [List.append_assoc, List.cons_append, List.nil_append]
  refine ⟨rfl, fun k hk hpre => ?_⟩
  rw [htext] at hpre
  rw [hbegin] at hk
  simp only [List.length_append, List.length_singleton] at hk
  by_cases hlt : k < (str "-----BEGIN CERTIFICATE-----").length
  · have hskip : Skips endCertificate (str "-----BEGIN CERTIFICATE-----") := by
      rw [hend]
      exact skips_of_not_mem (by decide)
    exact hskip _ k hlt hpre
  · rw [List.drop_append, List.drop_eq_nil_of_le (Nat.le_of_not_lt hlt), List.nil_append,
      hend] at hpre
    exact not_prefix_of_second hdashes (by decide) (by omega) hpre

theorem replaceLoop_newline {fuel : Nat} {text rest : Bytes} (hfuel : rest.length < fuel) :
    replaceLoop (str "\n") [] fuel (text ++ rest) text.length = text ++ removeChar rest 10 := by
  induction fuel generalizing text rest with
  | zero => exact absurd hfuel (Nat.not_lt_zero _)
  | succ fuel ih =>
    have hkeep : ∀ u : Bytes, (10 : UInt8) ∉ u → removeChar u 10 = u := by
      intro u hu
      refine List.filter_eq_self.mpr fun c hc => decide_eq_true ?_
      rintro rfl
      exact hu hc
    have hnl : str "\n" = [10] := by decide
    rw [replaceLoop, hnl, find, if_pos (by simp), List.drop_left]
    cases hsearch : search [10] rest with
    | none =>
      dsimp only [Option.map_none]
      rw [hkeep rest (not_mem_of_nowhere ((search_none (by decide)).mp hsearch))]
    | some n =>
      obtain ⟨pre, tail, hfirst, rfl⟩ := search_sound hsearch
      have hsplit := hfirst.split
      have htake : (text ++ rest).take (pre.length + text.length) = text ++ pre := by
        rw [hsplit, List.append_assoc, ← List.append_assoc, Nat.add_comm, ← List.length_append,
          List.take_left]
      have hdrop :
          (text ++ rest).drop (pre.length + text.length + [(10 : UInt8)].length) = tail := by
        have hlen : pre.length + text.length + [(10 : UInt8)].length =
            (text ++ (pre ++ [10])).length := by
          simp only [List.length_append]
          omega
        rw [hsplit, ← List.append_assoc, hlen, List.drop_left]
      have hremove : removeChar rest 10 = pre ++ removeChar tail 10 := by
        have hone : removeChar [10] 10 = [] := by decide
        rw [hsplit, removeChar, List.filter_append, List.filter_append]
        change removeChar pre 10 ++ removeChar [10] 10 ++ removeChar tail 10 = _
        rw [hkeep pre hfirst.not_mem, hone, List.append_nil]
      have hshort : tail.length < fuel := by
        rw [hsplit] at hfuel
        simp only [List.length_append, List.length_singleton] at hfuel
        omega
      have hnext := @ih (text ++ pre) tail hshort
      rw [hnl, List.length_append, Nat.add_comm] at hnext
      dsimp only [Option.map_some]
      rw [htake, hdrop, List.append_nil, hremove, ← List.append_assoc, List.length_nil,
        Nat.add_zero]
      exact hnext

theorem Pem.certificateText_text (p : Pem) :
    certificateText p.text = some (removeChar p.body 10) := by
  have hshort := p.short
  have hbegin : findSize beginCertificate p.text = 0 := by
    have hfirst :
        FirstAt beginCertificate (p.text.drop 0) [] (p.text.drop beginCertificate.length) :=
      .of_head ⟨p.body ++ endCertificate ++ str "\n", by
        simp only [Pem.text, List.append_assoc, List.drop_zero]⟩
    rw [findSize, find_complete (Nat.zero_le _) hfirst]
    rfl
  have hend : findSize endCertificate p.text = beginCertificate.length + p.body.length := by
    have hfirst : FirstAt endCertificate (p.text.drop 0) (beginCertificate ++ p.body) (str "\n") :=
      p.firstAt_end
    rw [findSize, find_complete (Nat.zero_le _) hfirst, Option.getD_some, List.length_append,
      Nat.add_zero]
  have hspos : (0 + beginCertificate.length) % 2 ^ 64 = beginCertificate.length := by decide
  have hlen : sizeT ((beginCertificate.length + p.body.length : Nat) - beginCertificate.length) =
      p.body.length := by
    rw [sizeT]
    omega
  have hsubstr : substr p.text beginCertificate.length p.body.length = some p.body := by
    rw [substr, if_neg, Pem.text, List.append_assoc, List.append_assoc, List.drop_left,
      List.take_left]
    simp only [Pem.text, List.length_append]
    omega
  have hreplace := @replaceLoop_newline (p.body.length + 1) [] p.body (Nat.lt_succ_self _)
  rw [certificateText, hbegin, hend, hspos, hlen, hsubstr, Option.map_some]
  exact congrArg some hreplace

theorem iasQuoteBody_tagged {pre q : Bytes} (hpre : Skips quoteTag pre)
    (hlen : (pre ++ quoteTag ++ q ++ str "\"\x7d").length < 2 ^ 31) :
    iasQuoteBody (pre ++ quoteTag ++ q ++ str "\"\x7d") = some q := by
  have hint : ∀ n : Nat, n < 2 ^ 31 → toInt32 n = n :=
    fun n hn => Int.bmod_eq_of_le (by omega) (by omega)
  have htag : quoteTag = str "\"isvEnclaveQuoteBody" ++ str "\":\"" := by decide
  generalize hbody : pre ++ quoteTag ++ q ++ str "\"\x7d" = isvBody at hlen ⊢
  have hsize : isvBody.length = pre.length + quoteTag.length + q.length + 2 := by
    rw [← hbody]
    simp only [List.length_append]
    rfl
  have hfirst : findInt quoteTag isvBody 0 = pre.length := by
    have hat : FirstAt quoteTag isvBody pre (q ++ str "\"\x7d") := by
      rw [← hbody, List.append_assoc _ q]
      exact hpre.firstAt _
    rw [findInt, find_complete (Nat.zero_le _) hat]
    dsimp only
    rw [Nat.add_zero, hint _ (by omega)]
  have hpos : sizeT pre.length = pre.length := by
    rw [sizeT]
    omega
  have hsecond : findInt (str "\":\"") isvBody pre.length + 3 =
      (pre.length + quoteTag.length : Nat) := by
    have hskip : Skips (str "\":\"") (str "\"isvEnclaveQuoteBody") := skips_of_differs (by decide)
    have hat : FirstAt (str "\":\"") (isvBody.drop pre.length) (str "\"isvEnclaveQuoteBody")
        (q ++ str "\"\x7d") := by
      have hdrop : isvBody.drop pre.length =
          str "\"isvEnclaveQuoteBody" ++ str "\":\"" ++ (q ++ str "\"\x7d") := by
        rw [← hbody, List.append_assoc, List.append_assoc, List.drop_left, htag]
      rw [hdrop]
      exact hskip.firstAt _
    have htaglen : quoteTag.length = (str "\"isvEnclaveQuoteBody").length + 3 := by decide
    rw [findInt, find_complete (by omega) hat]
    dsimp only
    rw [hint _ (by omega)]
    omega
  have hstart : sizeT (pre.length + quoteTag.length : Nat) = pre.length + quoteTag.length := by
    rw [sizeT]
    omega
  have hcount : sizeT ((pre.length + quoteTag.length + q.length + 2 : Nat) - 2 -
      (pre.length + quoteTag.length : Nat)) = q.length := by
    rw [sizeT]
    omega
  have hrest : isvBody.drop (pre.length + quoteTag.length) = q ++ str "\"\x7d" := by
    rw [← hbody, List.append_assoc _ q, ← List.length_append, List.drop_left]
  rw [iasQuoteBody, hfirst, hpos, hsecond, hint _ hlen, hsize, hstart, hcount, substr,
    if_neg (by omega), hrest, List.take_left]

/-- A response of the attestation service: certificates one behind the other in any encoding, and
a report whose last field is the quote. -/
structure Genuine (pems : List Pem) (quoteText certchain isvBody : Bytes) : Prop where
  chain : UrlEncoded (pems.map Pem.text).flatten certchain
  report : ∃ pre, Skips quoteTag pre ∧ isvBody = pre ++ quoteTag ++ quoteText ++ str "\"\x7d"
  short : isvBody.length < 2 ^ 31

theorem Pem.cutAt {pems : List Pem} (hne : pems ≠ []) :
    CutAt beginMark (pems.map Pem.text).flatten (pems.map Pem.text) := by
  have hmark : beginMark = 45 :: str "----BEGIN" := by decide
  rw [hmark]
  refine cutAt_flatten (mt List.map_eq_nil_iff.mp hne) fun u hu => ?_
  obtain ⟨p, -, rfl⟩ := List.mem_map.mp hu
  rw [← hmark]
  exact p.marked

theorem loadAll_texts {Cert Key : Type} (ssl : Ssl Cert Key) (pems : List Pem) :
    loadAll ssl (pems.map Pem.text) = pems.mapM fun p => ssl.loadCert p.text := by
  induction pems with
  | nil => rfl
  | cons p pems ih =>
    rw [List.map_cons, loadAll, Pem.cString_text, ih, List.mapM_cons]
    cases ssl.loadCert p.text with
    | none => rfl
    | some cert => cases pems.mapM fun p => ssl.loadCert p.text <;> rfl

theorem certificates_genuine {Cert Key : Type} {ssl : Ssl Cert Key} {first : Pem} {more : List Pem}
    {certchain certchain1 : Bytes} {certs : List Cert}
    (h : UrlEncoded ((first :: more).map Pem.text).flatten certchain) :
    certificates ssl certchain = .ok (certchain1, certs) ↔
      certchain1 = first.text ∧
        ((first :: more).mapM fun p => ssl.loadCert p.text) = some certs := by
  have hcut := Pem.cutAt (List.cons_ne_nil first more)
  rw [certificates_ok_iff, ← loadAll_texts]
  constructor
  · rintro ⟨decoded, pems, hdecoded, hpems, hload, hhead⟩
    obtain rfl := Option.some.inj (h.decode.symm.trans hdecoded)
    obtain rfl := hpems.unique hcut
    exact ⟨(Option.some.inj hhead).symm, hload⟩
  · rintro ⟨rfl, hload⟩
    exact ⟨_, _, h.decode, hcut, hload, rfl⟩

/-- A genuine response is accepted exactly when its own certificates and its own quote pass the
checks, and what is uploaded holds the first certificate without its frame and line breaks. -/
theorem genuine_uploaded_iff {Cert Key : Type} {ssl : Ssl Cert Key} {env : UploadEnv}
    {enclave : EnclaveId} {first : Pem} {more : List Pem}
    {certchain iasSig isvBody quoteText : Bytes} {i : Identity}
    (h : Genuine (first :: more) quoteText certchain isvBody) :
    idVerifyAndUploadIdentity ssl env enclave certchain iasSig isvBody = .ok i ↔
      ∃ certs, ((first :: more).mapM fun p => ssl.loadCert p.text) = some certs ∧
        Attested ssl enclave certs iasSig isvBody quoteText ∧
        env.Serves enclave certs.length
          (orgDataSize (removeChar first.body 10) iasSig isvBody enclave.accountId) ∧
        signed env enclave (removeChar first.body 10) iasSig isvBody = some i := by
  have hquote : iasQuoteBody isvBody = some quoteText := by
    obtain ⟨pre, hpre, hbody⟩ := h.report
    have hshort := h.short
    rw [hbody] at hshort ⊢
    exact iasQuoteBody_tagged hpre hshort
  have hfirst : certificateText first.text = some (removeChar first.body 10) :=
    first.certificateText_text
  rw [uploaded_iff_attested]
  constructor
  · rintro ⟨certchain1, certs, text, iasCert, hcerts, htext, hatt, hcert, hserves, hsigned⟩
    obtain ⟨rfl, hload⟩ := (certificates_genuine h.chain).mp hcerts
    obtain rfl := Option.some.inj (hquote.symm.trans htext)
    obtain rfl := Option.some.inj (hfirst.symm.trans hcert)
    exact ⟨certs, hload, hatt, hserves, hsigned⟩
  · rintro ⟨certs, hload, hatt, hserves, hsigned⟩
    exact ⟨_, certs, quoteText, _, (certificates_genuine h.chain).mpr ⟨rfl, hload⟩, hquote, hatt,
      hfirst, hserves, hsigned⟩

theorem Identity.idStr_read_back (floatText : Bytes → Bytes → Bytes) {mem : Mem} {i : Identity}
    (hcert : JsonParse.Untagged i.iasCert) (hsig : JsonParse.Untagged i.iasSig)
    (hbody : JsonParse.Untagged i.isvBody) (haccount : JsonParse.Untagged i.accountId) :
    JsonParse.load mem (i.idStr floatText) = .ok i.idJson := by
  have hkey : ∀ k : Bytes, JsonParse.NoEscape k → ∃ j, k = jsonEscape j :=
    fun k hk => ⟨k, (JsonParse.jsonEscape_of_noEscape hk).symm⟩
  have hloaded : JsonParse.Loaded i.idJson :=
    ((((JsonParse.Loaded.null.put (hkey _ (by decide)) (.string _)).put (hkey _ (by decide))
      (.string _)).put (hkey _ (by decide)) (.string _)).put (hkey _ (by decide)) (.string _)).put
      (hkey _ (by decide)) (.string _)
  have hplain : JsonParse.Plain i.idJson :=
    ((((JsonParse.Plain.null.put (by decide) (.string hcert)).put (by decide) (.string hsig)).put
      (by decide) (.string hbody)).put (by decide) (.string haccount)).put (by decide)
      (.string (JsonParse.untagged_hexstringSafe _))
  exact JsonParse.load_dump floatText hloaded hplain

/-! ### One response -/

def base64Digit (c : UInt8) : Option Nat :=
  if 65 ≤ c ∧ c ≤ 90 then some (c.toNat - 65)
  else if 97 ≤ c ∧ c ≤ 122 then some (c.toNat - 71)
  else if 48 ≤ c ∧ c ≤ 57 then some (c.toNat + 4)
  else if c = 43 then some 62
  else if c = 47 then some 63
  else none

/-- Four digits for three bytes; one or two equality signs may stand for the last digits. -/
def base64Bytes : Bytes → Option Bytes
  | [] => some []
  | a :: b :: c :: d :: t => do
    let x ← base64Digit a
    let y ← base64Digit b
    let first := UInt8.ofNat (4 * x + y / 16)
    if c = 61 ∧ d = 61 ∧ t = [] then return [first]
    let z ← base64Digit c
    let second := UInt8.ofNat (16 * y + z / 4)
    if d = 61 ∧ t = [] then return [first, second]
    let w ← base64Digit d
    let rest ← base64Bytes t
    return first :: second :: UInt8.ofNat (64 * z + w) :: rest
  | _ => none

theorem base64Bytes_zeros (n : Nat) :
    base64Bytes (List.replicate (4 * n) 65) = some (List.replicate (3 * n) 0) := by
  induction n with
  | zero => rfl
  | succ n ih =>
    have hdigit : base64Digit 65 = some 0 := by decide
    simp only [Nat.mul_succ, List.replicate_succ, base64Bytes, hdigit, ih]
    rfl

/-- A library that takes every certificate and every signature. -/
def trustingSsl : Ssl Bytes Unit where
  loadCert := some
  certVerify certs := decide (certs.length = 2)
  getPubkey _ := some ()
  sha256Verify _ _ _ := true
  base64Decode := base64Bytes

def oneEnv : UploadEnv := ⟨true, true, true, true, true, true, fun _ => some ⟨_, length_zeros64⟩⟩

def zeroEnclave : EnclaveId := ⟨⟨_, length_zeros64⟩, ⟨_, length_zeros32⟩, str "ab"⟩

theorem clean_of_all {body : Bytes} (h : body.all (fun c => c != 45 && c != 0) = true) :
    ∀ c ∈ body, c ≠ 45 ∧ c ≠ 0 := by
  intro c hc
  simpa using List.all_eq_true.mp h c hc

def signingPem : Pem := ⟨str "QU\nE=", clean_of_all (by decide), by decide⟩

def rootPem : Pem := ⟨str "Qg==", clean_of_all (by decide), by decide⟩

/-- The text of a quote of 432 zeros. -/
def quoteText : Bytes := List.replicate 576 65

def oneReport : Bytes := str "\x7b\"id\":\"1\"," ++ quoteTag ++ quoteText ++ str "\"\x7d"

theorem length_oneReport : oneReport.length = 611 := by
  simp only [oneReport, quoteText, List.length_append, List.length_replicate]
  decide

theorem genuine_one : Genuine [signingPem, rootPem] quoteText
    (urlEncode ([signingPem, rootPem].map Pem.text).flatten) oneReport where
  chain := urlEncoded_urlEncode _
  report := ⟨str "\x7b\"id\":\"1\",", skips_of_differs (by decide), rfl⟩
  short := by
    rw [length_oneReport]
    decide

theorem quoteField_zeros {n offset len : Nat} (hn : n ≤ sizeofSgxQuote)
    (hlen : offset + len ≤ sizeofSgxQuote) :
    quoteField (List.replicate n 0) offset len = List.replicate len 0 := by
  have hmin : min len (n + (sizeofSgxQuote - n) - offset) = len := by omega
  rw [quoteField, List.length_replicate, List.replicate_append_replicate, List.drop_replicate,
    List.take_replicate, hmin]

theorem genuine_uploaded_one :
    idVerifyAndUploadIdentity trustingSsl oneEnv zeroEnclave
        (urlEncode ([signingPem, rootPem].map Pem.text).flatten) (str "c2ln") oneReport =
      .ok ⟨str "QUE=", str "c2ln", oneReport, str "ab", ⟨_, length_zeros64⟩⟩ := by
  have horg : encMalloc oneEnv.mallocOrgData
      (orgDataSize (removeChar signingPem.body 10) (str "c2ln") oneReport zeroEnclave.accountId) =
        true := by
    rw [orgDataSize, length_oneReport]
    decide
  refine (genuine_uploaded_iff genuine_one).mpr ⟨_, rfl,
    ⟨rfl, ⟨(), _, rfl, by decide, rfl, rfl⟩, ?_⟩,
    ⟨by decide, rfl, by decide, rfl, fun _ => by decide, horg⟩, rfl⟩
  refine ⟨List.replicate 432 0, base64Bytes_zeros 144, ?_, ?_, ?_⟩
  · rw [List.length_replicate]
    decide
  · exact quoteField_zeros (by decide) (by decide)
  · exact quoteField_zeros (by decide) (by decide)

end CrustSworker.Attestation

import CrustSworker.EntryText
import CrustSworker.Pieces
import CrustSworker.Runs

/-!
# The chunked store

`persist_set`, `persist_get` and their variants without sealing. A value of more than
`OCALL_STORE_THRESHOLD` bytes is stored in numbered parts with a summary record, a smaller one
under its key. The database is a map of records and no access to it fails; what the allocator
and the sealing answer is a parameter of each call. `none` is a fault: in the JSON loader, or a
copy behind the end of a buffer.

`inner_ocall_persist_get` fails in the same way for a record that is not there and for a record
it has no memory for, so a summary that cannot be copied is taken for one that does not exist.
-/

namespace CrustSworker.Persistence

open JsonParse OrderedMap Pieces

abbrev DB := Bytes → Option Bytes

def DB.set (db : DB) (key value : Bytes) : DB := Function.update db key (some value)

def DB.del (db : DB) (key : Bytes) : DB := Function.update db key none

def ocallStoreThreshold : Nat := 4194304

def persistSum : Bytes := str "persist_sum"
def persistSize : Bytes := str "persist_size"

def persistGetFailed : CrustStatus := .host 0x6004
def unsealDataFailed : CrustStatus := .host 0x4002

def partKey (key : Bytes) (i : Nat) : Bytes := key ++ str "_" ++ decNat i

def sumKey (key : Bytes) : Bytes := key ++ str "_sum"

/-- A buffer of the enclave is no larger than its heap. -/
abbrev Buffer := {b : Bytes // b.length ≤ heapMaxSize}

/-- What sealed data says about its plain text, and what unsealing makes of it. -/
structure Unsealing where
  encryptTxtLen : Bytes → Nat
  unsealData : Bytes → Option Bytes

/-- What a call that writes is answered; sealing is undone by unsealing. -/
structure SetEnv (u : Unsealing) where
  mallocSealed : Bool
  sgxSealData : Bytes → Option Buffer
  inverse : ∀ value out, sgxSealData value = some out →
    u.unsealData out.val = some value ∧ u.encryptTxtLen out.val = value.length
  mallocSum : Bool

structure GetEnv where
  mallocSum : Bool
  mallocWhole : Bool
  mallocData : Bool
  mallocPart : Nat → Bool
  mallocUnsealed : Bool

def sumJson (num size : Nat) : JSON :=
  (JSON.null.put persistSum (.integral num)).put persistSize (.integral size)

def innerOcallPersistGet (malloc : Bool) (db : DB) (key : Bytes) : CrustStatus × Bytes :=
  match db key with
  | none => (persistGetFailed, [])
  | some value => if encMalloc malloc value.length then (.success, value) else (.mallocFailed, [])

def storeParts (key : Bytes) (db : DB) (index : Nat) (rest : Bytes) : DB × Nat :=
  if _h : rest = [] then (db, index)
  else
    storeParts key (db.set (partKey key index) (rest.take ocallStoreThreshold)) (index + 1)
      (rest.drop ocallStoreThreshold)
termination_by rest.length
decreasing_by
  have hpos := List.length_pos_iff.mpr _h
  rw [List.length_drop, ocallStoreThreshold]
  omega

def toUint32 (n : Int) : Nat := (n % 2 ^ 32).toNat

def sealDataMrenclave {u : Unsealing} (env : SetEnv u) (value : Bytes) : CrustStatus × Bytes :=
  match env.sgxSealData value with
  | none => (.sealDataFailed, [])
  | some sealed =>
    if ¬ encMalloc env.mallocSealed sealed.val.length then (.mallocFailed, [])
    else (.success, sealed.val)

section
variable (mem : Mem) (floatText : Bytes → Bytes → Bytes)

def sumText (num size : Nat) : Bytes :=
  removeChar (removeChar (removeChar ((sumJson num size).dump floatText) 92) 10) 32

/-- What both variants do with the bytes they store. The length of sealed data is a `uint32_t`
from the start, so that the casts of `persist_set` change nothing. -/
def storeData (malloc : Bool) (db : DB) (key data : Bytes) : Option (CrustStatus × DB) :=
  if data.length > ocallStoreThreshold then
    let stored := storeParts key db 0 data
    some (.success, stored.1.set (sumKey key) (sumText floatText stored.2 data.length))
  else
    match innerOcallPersistGet malloc db (sumKey key) with
    | (.success, text) =>
      match load mem text with
      | .error _ => none
      | .ok sum =>
        let pieceNum := toUint32 (sum.get persistSum).toInt
        let db := ((List.range pieceNum).foldl (fun db i => db.del (partKey key i)) db).del (sumKey key)
        some (.success, db.set key data)
    | _ => some (.success, db.set key data)

def persistSetUnsafe {u : Unsealing} (env : SetEnv u) (db : DB) (key value : Bytes) :
    Option (CrustStatus × DB) :=
  storeData mem floatText env.mallocSum db key value

def persistSet {u : Unsealing} (env : SetEnv u) (db : DB) (key value : Bytes) :
    Option (CrustStatus × DB) :=
  match sealDataMrenclave env value with
  | (.success, sealed) => storeData mem floatText env.mallocSum db key sealed
  | (status, _) => some (status, db)

end

def intoBuffer (size : Nat) (parts : Bytes) : Option Bytes :=
  if parts.length ≤ size then some (parts ++ List.replicate (size - parts.length) 0) else none

/-- The loop of `persist_get_unsafe`: a part that cannot be read is skipped, and the status is
that of the last one. -/
def readParts (env : GetEnv) (db : DB) (key : Bytes) (pieceNum : Nat) : CrustStatus × Bytes :=
  (List.range pieceNum).foldl (fun acc i =>
    let part := innerOcallPersistGet (env.mallocPart i) db (partKey key i)
    (part.1, acc.2 ++ part.2)) (.success, [])

/-- The loop of `persist_get`, which returns at the first part that cannot be read. -/
def readPartsChecked (env : GetEnv) (db : DB) (key : Bytes) (pieceNum : Nat) :
    CrustStatus × Bytes :=
  (List.range pieceNum).foldl (fun acc i =>
    if acc.1 ≠ .success then acc
    else
      let part := innerOcallPersistGet (env.mallocPart i) db (partKey key i)
      if part.1 ≠ .success then (part.1, acc.2) else (.success, acc.2 ++ part.2)) (.success, [])

section
variable (mem : Mem)

def persistGetUnsafe (env : GetEnv) (db : DB) (key : Bytes) : Option (CrustStatus × Option Bytes) :=
  match innerOcallPersistGet env.mallocSum db (sumKey key) with
  | (.success, text) =>
    match load mem text with
    | .error _ => none
    | .ok sum =>
      let size := sizeT (sum.get persistSize).toInt
      if ¬ encMalloc env.mallocData size then some (.mallocFailed, none)
      else
        let parts := readParts env db key (toUint32 (sum.get persistSum).toInt)
        (intoBuffer size parts.2).map fun data => (parts.1, some data)
  | _ =>
    match innerOcallPersistGet env.mallocWhole db key with
    | (.success, data) =>
      if ¬ encMalloc env.mallocData data.length then some (.mallocFailed, none)
      else some (.success, some data)
    | (status, _) => some (status, none)

/-- The sealed data in front of the last part of `persist_get`. -/
def sealedData (env : GetEnv) (db : DB) (key : Bytes) : Option (CrustStatus × Bytes) :=
  match innerOcallPersistGet env.mallocSum db (sumKey key) with
  | (.success, text) =>
    match load mem text with
    | .error _ => none
    | .ok sum =>
      let size := sizeT (sum.get persistSize).toInt
      if ¬ encMalloc env.mallocData size then some (.mallocFailed, [])
      else
        let parts := readPartsChecked env db key (toUint32 (sum.get persistSum).toInt)
        (intoBuffer size parts.2).map fun data =>
          if parts.1 = .success then (.success, data) else (parts.1, [])
  | _ =>
    match innerOcallPersistGet env.mallocWhole db key with
    | (.success, data) =>
      if ¬ encMalloc env.mallocData data.length then some (.mallocFailed, [])
      else some (.success, data)
    | (status, _) => some (status, [])

def persistGet (u : Unsealing) (env : GetEnv) (db : DB) (key : Bytes) :
    Option (CrustStatus × Option Bytes) :=
  match sealedData mem env db key with
  | none => none
  | some (.success, sealed) =>
    -- Without memory for the plain text the status is still that of the last record.
    if ¬ encMalloc env.mallocUnsealed (u.encryptTxtLen sealed) then some (.success, none)
    else
      match u.unsealData sealed with
      | none => some (unsealDataFailed, none)
      | some value => some (.success, some value)
  | some (status, _) => some (status, none)

end

/-! ### The summary record -/

section
variable (mem : Mem) (floatText : Bytes → Bytes → Bytes)

theorem sumJson_eq (num size : Nat) :
    sumJson num size = .object [(persistSize, .integral size), (persistSum, .integral num)] := rfl

theorem sumText_eq (num size : Nat) :
    sumText floatText num size = strip ((sumJson num size).dump floatText) := by
  simp only [sumText, strip, removeChar, List.filter_filter]
  refine List.filter_congr fun c _ => ?_
  exact congrArg _ (Bool.and_comm _ _)

theorem sumText_load {num size : Nat} (hnum : IsLong num) (hsize : IsLong size) :
    load mem (sumText floatText num size) = .ok (sumJson num size) := by
  have hs : Sorted ltBytes [(persistSize, JSON.integral size), (persistSum, JSON.integral num)] := by
    simp only [Sorted, List.pairwise_cons, List.mem_cons, List.not_mem_nil, or_false, forall_eq,
      false_implies, implies_true, List.Pairwise.nil, and_true]
    decide
  have hf : ∀ p ∈ [(persistSize, JSON.integral size), (persistSum, JSON.integral num)],
      PlainKey p.1 ∧ ∃ n, p.2 = .integral n ∧ IsLong n := by
    intro p hp
    simp only [List.mem_cons, List.not_mem_nil, or_false] at hp
    rcases hp with rfl | rfl
    · exact ⟨show PlainKey persistSize by decide, _, rfl, hsize⟩
    · exact ⟨show PlainKey persistSum by decide, _, rfl, hnum⟩
  rw [sumText_eq, sumJson_eq]
  exact load_numbers mem floatText hs hf

theorem length_sumText_le {num size : Nat} (hnum : num ≤ heapMaxSize) (hsize : size ≤ heapMaxSize) :
    (sumText floatText num size).length ≤ heapMaxSize := by
  have hkept : ∀ p ∈ [(persistSize, JSON.integral size), (persistSum, JSON.integral num)],
      Kept p.1 := by
    intro p hp
    simp only [List.mem_cons, List.not_mem_nil, or_false] at hp
    rcases hp with rfl | rfl
    · exact show Kept persistSize by decide
    · exact show Kept persistSum by decide
  have hdigits : ∀ n : Nat, n ≤ heapMaxSize → (decInt n).length ≤ 9 := by
    intro n hn
    have hlt : n < 10 ^ (8 + 1) := lt_of_le_of_lt hn (by decide)
    have hdec : decInt n = decNat n := by simp [decInt]
    rw [hdec]
    exact decNat_length_le hlt
  have h₁ := hdigits num hnum
  have h₂ := hdigits size hsize
  have hlen₁ : persistSize.length = 12 := by decide
  have hlen₂ : persistSum.length = 11 := by decide
  have hchars : (str "\x7b").length = 1 ∧ (str "\x7d").length = 1 ∧ (str "\"").length = 1 ∧
      (str ":").length = 1 ∧ (str ",").length = 1 := by decide
  have hheap : heapMaxSize = 536870912 := rfl
  rw [sumText_eq, sumJson_eq, JSON.dump, strip_dump_object floatText hkept]
  simp only [List.map_cons, List.map_nil, strip_dump_integral, Metadata.commaSep, member, quoted,
    List.length_append, hchars, hlen₁, hlen₂]
  omega

end

/-! ### The keys -/

def IsHexDigit (c : UInt8) : Prop := IsDigit c ∨ (97 ≤ c ∧ c ≤ 102) ∨ (65 ≤ c ∧ c ≤ 70)

instance (c : UInt8) : Decidable (IsHexDigit c) := inferInstanceAs (Decidable (_ ∨ _))

abbrev FileHash := {b : Bytes // b.length = 64 ∧ ∀ c ∈ b, IsHexDigit c}

/-- What the enclave stores: the metadata, two records of the app, and for each file its tree and
its meta record. -/
inductive Key where
  | metadata
  | srdInfo
  | wlSpecInfo
  | file (hash : FileHash)
  | fileMeta (hash : FileHash)
  deriving DecidableEq

def Key.name : Key → Bytes
  | .metadata => str "metadata"
  | .srdInfo => str "srd_info"
  | .wlSpecInfo => str "wl_spec_info"
  | .file hash => hash.val
  | .fileMeta hash => hash.val ++ str "_meta"

inductive Slot where
  | whole
  | part (i : Nat)
  | sum

def slotKey (k : Key) : Slot → Bytes
  | .whole => k.name
  | .part i => partKey k.name i
  | .sum => sumKey k.name

def underscore : UInt8 := 95

theorem append_mark_inj {c : UInt8} {x y t u : Bytes} (ht : c ∉ t) (hu : c ∉ u)
    (h : x ++ c :: t = y ++ c :: u) : x = y ∧ t = u := by
  rcases List.append_eq_append_iff.mp h with ⟨m, hy, htail⟩ | ⟨m, hx, htail⟩
  · cases m with
    | nil =>
      rw [List.append_nil] at hy
      exact ⟨hy.symm, (List.cons.inj htail).2⟩
    | cons b m =>
      refine absurd ?_ ht
      rw [(List.cons.inj htail).2]
      exact List.mem_append_right _ List.mem_cons_self
  · cases m with
    | nil =>
      rw [List.append_nil] at hx
      exact ⟨hx, (List.cons.inj htail).2.symm⟩
    | cons b m =>
      refine absurd ?_ hu
      rw [(List.cons.inj htail).2]
      exact List.mem_append_right _ List.mem_cons_self

theorem underscore_not_digit : ¬ IsDigit underscore := by decide

theorem underscore_not_mem_decNat (n : Nat) : underscore ∉ decNat n :=
  fun h => underscore_not_digit (decNat_digits n _ h)

theorem underscore_not_mem_hash (hash : FileHash) : underscore ∉ hash.val :=
  fun h => absurd (hash.property.2 _ h) (by decide)

inductive IsEnd : Slot → Bytes → Prop
  | part (i : Nat) : IsEnd (.part i) (decNat i)
  | sum : IsEnd .sum (str "sum")

namespace IsEnd

variable {s s' : Slot} {t : Bytes}

theorem plain (h : IsEnd s t) : underscore ∉ t := by
  cases h with
  | part i => exact underscore_not_mem_decNat i
  | sum => decide

theorem not_word (h : IsEnd s t) : t ≠ str "info" ∧ t ≠ str "meta" := by
  cases h with
  | part i =>
    constructor
    · intro heq
      exact absurd (decNat_digits i 105 (heq ▸ by decide)) (by decide)
    · intro heq
      exact absurd (decNat_digits i 109 (heq ▸ by decide)) (by decide)
  | sum => decide

theorem unique (h : IsEnd s t) (h' : IsEnd s' t) : s = s' := by
  have hsum : ∀ i, decNat i ≠ str "sum" := by
    intro i heq
    exact absurd (decNat_digits i 115 (heq ▸ by decide)) (by decide)
  cases h with
  | part i =>
    generalize ht : decNat i = t at h'
    cases h' with
    | part j => rw [decNat_injective ht]
    | sum => exact absurd ht (hsum i)
  | sum =>
    generalize ht : str "sum" = t at h'
    cases h' with
    | part j => exact absurd ht.symm (hsum j)
    | sum => rfl

end IsEnd

theorem slotKey_end (k : Key) {s : Slot} (hs : s ≠ .whole) :
    ∃ t, IsEnd s t ∧ slotKey k s = k.name ++ underscore :: t := by
  cases s with
  | whole => exact absurd rfl hs
  | part i =>
    refine ⟨decNat i, .part i, ?_⟩
    simp only [slotKey, partKey, List.append_assoc]
    rfl
  | sum => exact ⟨str "sum", .sum, rfl⟩

theorem name_ne_derived (k k' : Key) {s : Slot} {t : Bytes} (ht : IsEnd s t) :
    k.name ≠ k'.name ++ underscore :: t := by
  intro h
  have hmem : underscore ∈ k.name := by
    rw [h]
    exact List.mem_append_right _ List.mem_cons_self
  have hword : ∀ x w, k.name = x ++ underscore :: w → underscore ∉ w →
      w = str "info" ∨ w = str "meta" → False := by
    intro x w hname hw hor
    obtain ⟨-, rfl⟩ := append_mark_inj hw ht.plain (hname.symm.trans h)
    exact hor.elim ht.not_word.1 ht.not_word.2
  cases k with
  | metadata => exact absurd hmem (by decide)
  | srdInfo => exact hword (str "srd") (str "info") (by decide) (by decide) (.inl rfl)
  | wlSpecInfo => exact hword (str "wl_spec") (str "info") (by decide) (by decide) (.inl rfl)
  | file hash => exact underscore_not_mem_hash hash hmem
  | fileMeta hash => exact hword hash.val (str "meta") rfl (by decide) (.inr rfl)

theorem name_injective : Function.Injective Key.name := by
  have hlen : ∀ k : Key, k.name.length = match k with
      | .metadata => 8
      | .srdInfo => 8
      | .wlSpecInfo => 12
      | .file _ => 64
      | .fileMeta _ => 69 := by
    intro k
    cases k with
    | file hash => exact hash.property.1
    | fileMeta hash =>
      rw [Key.name, List.length_append, hash.property.1]
      rfl
    | _ => rfl
  intro k k' h
  have hl : k.name.length = k'.name.length := by rw [h]
  rw [hlen, hlen] at hl
  cases k with
  | file hash =>
    cases k' with
    | file hash' => rw [Subtype.ext (h : hash.val = hash'.val)]
    | _ => cases hl
  | fileMeta hash =>
    cases k' with
    | fileMeta hash' => rw [Subtype.ext (List.append_cancel_right h)]
    | _ => cases hl
  | metadata =>
    cases k' with
    | metadata => rfl
    | srdInfo => exact absurd h (by decide)
    | _ => cases hl
  | srdInfo =>
    cases k' with
    | srdInfo => rfl
    | metadata => exact absurd h (by decide)
    | _ => cases hl
  | wlSpecInfo =>
    cases k' with
    | wlSpecInfo => rfl
    | _ => cases hl

theorem slotKey_injective {k k' : Key} {s s' : Slot} (h : slotKey k s = slotKey k' s') :
    k = k' ∧ s = s' := by
  by_cases hs : s = .whole
  · by_cases hs' : s' = .whole
    · subst hs hs'
      exact ⟨name_injective h, rfl⟩
    · obtain ⟨t, ht, heq⟩ := slotKey_end k' hs'
      subst hs
      exact absurd (h.trans heq) (name_ne_derived k k' ht)
  · obtain ⟨t, ht, heq⟩ := slotKey_end k hs
    by_cases hs' : s' = .whole
    · subst hs'
      exact absurd (h.symm.trans heq) (name_ne_derived k' k ht)
    · obtain ⟨t', ht', heq'⟩ := slotKey_end k' hs'
      obtain ⟨hname, rfl⟩ := append_mark_inj ht.plain ht'.plain (heq.symm.trans (h.trans heq'))
      exact ⟨name_injective hname, ht.unique ht'⟩

/-! ### Storing -/

theorem threshold_pos : 0 < ocallStoreThreshold := by decide

theorem storeParts_eq (key : Bytes) (db : DB) (index : Nat) (data : Bytes) :
    storeParts key db index data =
      (putFrom (partKey key) index (cut ocallStoreThreshold data) db,
        index + (cut ocallStoreThreshold data).length) := by
  refine cut_induction (P := fun rest ps => ∀ db index, storeParts key db index rest =
    (putFrom (partKey key) index ps db, index + ps.length)) threshold_pos ?_ ?_ data db index
  · intro db index
    rw [storeParts, dif_pos rfl]
    rfl
  · intro rest hrest ih db index
    rw [storeParts, dif_neg hrest, ih, putFrom, List.length_cons, DB.set]
    exact congrArg _ (by omega)

section
variable (floatText : Bytes → Bytes → Bytes)

structure Holds (db : DB) (k : Key) (data : Bytes) : Prop where
  small : data.length ≤ ocallStoreThreshold →
    db (slotKey k .sum) = none ∧ db (slotKey k .whole) = some data
  large : ocallStoreThreshold < data.length →
    db (slotKey k .sum) =
        some (sumText floatText (cut ocallStoreThreshold data).length data.length) ∧
      ∀ i p, (cut ocallStoreThreshold data)[i]? = some p → db (slotKey k (.part i)) = some p

end

def Frame (k : Key) (db db' : DB) : Prop := ∀ x, (∀ s, x ≠ slotKey k s) → db' x = db x

section
variable {mem : Mem} {floatText : Bytes → Bytes → Bytes} {db : DB} {k : Key} {data : Bytes}

theorem slotKey_ne {s t : Slot} (h : s ≠ t) : slotKey k s ≠ slotKey k t :=
  fun heq => h (slotKey_injective heq).2

theorem partKey_injective (k : Key) : Function.Injective (partKey k.name) := by
  intro i j h
  have hslot : slotKey k (.part i) = slotKey k (.part j) := h
  cases (slotKey_injective hslot).2
  rfl

theorem storeData_large_eq (malloc : Bool) (hlen : ocallStoreThreshold < data.length) (key : Bytes) :
    storeData mem floatText malloc db key data =
      some (.success, (DB.set (putFrom (partKey key) 0 (cut ocallStoreThreshold data) db)
        (sumKey key) (sumText floatText (cut ocallStoreThreshold data).length data.length))) := by
  unfold storeData
  rw [if_pos hlen, storeParts_eq, Nat.zero_add]

theorem storeData_large (mem : Mem) (floatText : Bytes → Bytes → Bytes) (db : DB) (k : Key)
    (malloc : Bool) (hlen : ocallStoreThreshold < data.length) :
    ∃ db', storeData mem floatText malloc db k.name data = some (.success, db') ∧
      Holds floatText db' k data ∧ Frame k db db' := by
  refine ⟨_, storeData_large_eq malloc hlen k.name,
    ⟨fun h => absurd h (by omega), fun _ => ⟨?_, fun i p hp => ?_⟩⟩, fun x hx => ?_⟩
  · exact Function.update_self _ _ _
  · have hne : slotKey k (.part i) ≠ sumKey k.name := slotKey_ne (t := .sum) (by simp)
    have hput := putFrom_piece (m := db) (i := 0) (partKey_injective k) hp
    rw [Nat.zero_add] at hput
    rw [DB.set, Function.update_of_ne hne]
    exact hput
  · have hne : x ≠ sumKey k.name := hx .sum
    rw [DB.set, Function.update_of_ne hne]
    exact putFrom_other (fun j => hx (.part j)) 0 _

/-- A summary that is there, if any, is one that was written. -/
def SumOk (floatText : Bytes → Bytes → Bytes) (db : DB) (k : Key) : Prop :=
  ∀ text, db (slotKey k .sum) = some text →
    ∃ num size, num ≤ heapMaxSize ∧ size ≤ heapMaxSize ∧ text = sumText floatText num size

theorem isLong_of_le {n : Nat} (h : n ≤ heapMaxSize) : IsLong n := by
  have hheap : heapMaxSize = 536870912 := rfl
  exact ⟨by omega, by omega⟩

theorem innerGet_missing {malloc : Bool} {key : Bytes} (h : db key = none) :
    innerOcallPersistGet malloc db key = (persistGetFailed, []) := by
  unfold innerOcallPersistGet
  rw [h]

theorem innerGet_found {key value : Bytes} (h : db key = some value)
    (hlen : value.length ≤ heapMaxSize) : innerOcallPersistGet true db key = (.success, value) := by
  unfold innerOcallPersistGet
  rw [h]
  exact if_pos (by simp [encMalloc, hlen])

theorem innerGet_starved {key value : Bytes} (h : db key = some value) :
    innerOcallPersistGet false db key = (.mallocFailed, []) := by
  unfold innerOcallPersistGet
  rw [h]
  exact if_neg (by simp [encMalloc])

theorem sumJson_num {num : Nat} (size : Nat) (h : num ≤ heapMaxSize) :
    toUint32 ((sumJson num size).get persistSum).toInt = num := by
  have hget : ((sumJson num size).get persistSum).toInt = num := rfl
  have hheap : heapMaxSize = 536870912 := rfl
  rw [hget, toUint32]
  omega

theorem sumJson_size (num : Nat) {size : Nat} (h : size ≤ heapMaxSize) :
    sizeT ((sumJson num size).get persistSize).toInt = size := by
  have hget : ((sumJson num size).get persistSize).toInt = size := rfl
  have hheap : heapMaxSize = 536870912 := rfl
  rw [hget, sizeT]
  omega

theorem storeData_small_eq {malloc : Bool} {key : Bytes} (hlen : data.length ≤ ocallStoreThreshold)
    (hsum : db (sumKey key) = none ∨ malloc = false) :
    storeData mem floatText malloc db key data = some (.success, db.set key data) := by
  unfold storeData
  rw [if_neg (by omega)]
  cases htext : db (sumKey key) with
  | none =>
    rw [innerGet_missing htext]
    rfl
  | some text =>
    obtain rfl : malloc = false := hsum.resolve_left (by rw [htext]; simp)
    rw [innerGet_starved htext]

theorem storeData_small_cleared {key : Bytes} (hlen : data.length ≤ ocallStoreThreshold)
    {num size : Nat} (hnum : num ≤ heapMaxSize) (hsize : size ≤ heapMaxSize)
    (hsum : db (sumKey key) = some (sumText floatText num size)) :
    storeData mem floatText true db key data =
      some (.success, (DB.set (DB.del (delBelow (partKey key) num db) (sumKey key)) key data)) := by
  unfold storeData
  rw [if_neg (by omega), innerGet_found hsum (length_sumText_le floatText hnum hsize)]
  dsimp only
  rw [sumText_load mem floatText (isLong_of_le hnum) (isLong_of_le hsize)]
  dsimp only
  rw [sumJson_num _ hnum]
  rfl

theorem storeData_small {malloc : Bool} (hlen : data.length ≤ ocallStoreThreshold)
    (hsum : SumOk floatText db k)
    (hmalloc : (db (slotKey k .sum)).isSome = true → malloc = true) :
    ∃ db', storeData mem floatText malloc db k.name data = some (.success, db') ∧
      Holds floatText db' k data ∧ Frame k db db' := by
  have hnw : slotKey k .sum ≠ k.name := slotKey_ne (t := .whole) (by simp)
  cases htext : db (slotKey k .sum) with
  | none =>
    refine ⟨_, storeData_small_eq hlen (.inl htext),
      ⟨fun _ => ⟨?_, ?_⟩, fun h => absurd hlen (by omega)⟩, fun x hx => ?_⟩
    · rw [DB.set, Function.update_of_ne hnw, htext]
    · exact Function.update_self _ _ _
    · have hne : x ≠ k.name := hx .whole
      rw [DB.set, Function.update_of_ne hne]
  | some text =>
    obtain ⟨num, size, hnum, hsize, rfl⟩ := hsum text htext
    rw [hmalloc (by rw [htext]; rfl)]
    refine ⟨_, storeData_small_cleared hlen hnum hsize htext,
      ⟨fun _ => ⟨?_, ?_⟩, fun h => absurd hlen (by omega)⟩, fun x hx => ?_⟩
    · rw [DB.set, Function.update_of_ne hnw]
      exact Function.update_self _ _ _
    · exact Function.update_self _ _ _
    · have hne : x ≠ k.name := hx .whole
      have hne' : x ≠ sumKey k.name := hx .sum
      rw [DB.set, Function.update_of_ne hne, DB.del, Function.update_of_ne hne']
      exact delBelow_other (fun j => hx (.part j)) _

/-! ### Reading -/

structure GetEnv.Served (env : GetEnv) : Prop where
  sum : env.mallocSum = true
  whole : env.mallocWhole = true
  data : env.mallocData = true
  part : ∀ i, env.mallocPart i = true
  unsealed : env.mallocUnsealed = true

theorem intoBuffer_full (data : Bytes) : intoBuffer data.length data = some data := by
  rw [intoBuffer, if_pos (Nat.le_refl _), Nat.sub_self, List.replicate_zero, List.append_nil]

theorem take_succ_flatten {ps : List Bytes} {n : Nat} {p : Bytes} (hp : ps[n]? = some p) :
    (ps.take (n + 1)).flatten = (ps.take n).flatten ++ p := by
  rw [List.take_add_one, hp, Option.toList_some, List.flatten_append, List.flatten_singleton]

section
variable {env : GetEnv} {ps : List Bytes} {key : Bytes}

theorem readParts_take (henv : env.Served)
    (hps : ∀ i p, ps[i]? = some p → db (partKey key i) = some p ∧ p.length ≤ heapMaxSize)
    {n : Nat} (hn : n ≤ ps.length) : readParts env db key n = (.success, (ps.take n).flatten) := by
  unfold readParts
  induction n with
  | zero => rfl
  | succ n ih =>
    have hp : ps[n]? = some ps[n] := List.getElem?_eq_getElem hn
    obtain ⟨hdb, hlen⟩ := hps n _ hp
    rw [List.range_succ, List.foldl_append, ih (by omega), List.foldl_cons, List.foldl_nil,
      henv.part n, innerGet_found hdb hlen, take_succ_flatten hp]

theorem readPartsChecked_take (henv : env.Served)
    (hps : ∀ i p, ps[i]? = some p → db (partKey key i) = some p ∧ p.length ≤ heapMaxSize)
    {n : Nat} (hn : n ≤ ps.length) :
    readPartsChecked env db key n = (.success, (ps.take n).flatten) := by
  unfold readPartsChecked
  induction n with
  | zero => rfl
  | succ n ih =>
    have hp : ps[n]? = some ps[n] := List.getElem?_eq_getElem hn
    obtain ⟨hdb, hlen⟩ := hps n _ hp
    rw [List.range_succ, List.foldl_append, ih (by omega), List.foldl_cons, List.foldl_nil,
      if_neg (by simp), henv.part n, innerGet_found hdb hlen, take_succ_flatten hp]
    exact if_neg (by simp)

end

theorem encMalloc_served {ok : Bool} {n : Nat} (hok : ok = true) (h : n ≤ heapMaxSize) :
    encMalloc ok n = true := by
  simp [encMalloc, hok, h]

theorem length_cut_le_heap (h : data.length ≤ heapMaxSize) :
    (cut ocallStoreThreshold data).length ≤ heapMaxSize :=
  (length_cut_le threshold_pos data).trans h

theorem Holds.parts (h : Holds floatText db k data) (hlarge : ocallStoreThreshold < data.length) :
    ∀ i p, (cut ocallStoreThreshold data)[i]? = some p →
      db (partKey k.name i) = some p ∧ p.length ≤ heapMaxSize := by
  intro i p hp
  have hlen := length_of_mem_cut threshold_pos data p (List.mem_of_getElem? hp)
  exact ⟨(h.large hlarge).2 i p hp, hlen.trans (by decide)⟩

section
variable {env : GetEnv} {ps : List Bytes} {key : Bytes}

structure Parted (floatText : Bytes → Bytes → Bytes) (db : DB) (key : Bytes) (ps : List Bytes) :
    Prop where
  num : ps.length ≤ heapMaxSize
  size : ps.flatten.length ≤ heapMaxSize
  sum : db (sumKey key) = some (sumText floatText ps.length ps.flatten.length)
  parts : ∀ i p, ps[i]? = some p → db (partKey key i) = some p ∧ p.length ≤ heapMaxSize

theorem Parted.getUnsafe (mem : Mem) (h : Parted floatText db key ps) (henv : env.Served) :
    persistGetUnsafe mem env db key = some (.success, some ps.flatten) := by
  unfold persistGetUnsafe
  rw [henv.sum, innerGet_found h.sum (length_sumText_le floatText h.num h.size)]
  dsimp only
  rw [sumText_load mem floatText (isLong_of_le h.num) (isLong_of_le h.size)]
  dsimp only
  rw [sumJson_num _ h.num, sumJson_size _ h.size,
    if_neg (not_not.mpr (encMalloc_served henv.data h.size)),
    readParts_take henv h.parts (Nat.le_refl _), List.take_length, intoBuffer_full]
  rfl

theorem Parted.getSealed (mem : Mem) (h : Parted floatText db key ps) (henv : env.Served) :
    sealedData mem env db key = some (.success, ps.flatten) := by
  unfold sealedData
  rw [henv.sum, innerGet_found h.sum (length_sumText_le floatText h.num h.size)]
  dsimp only
  rw [sumText_load mem floatText (isLong_of_le h.num) (isLong_of_le h.size)]
  dsimp only
  rw [sumJson_num _ h.num, sumJson_size _ h.size,
    if_neg (not_not.mpr (encMalloc_served henv.data h.size)),
    readPartsChecked_take henv h.parts (Nat.le_refl _), List.take_length, intoBuffer_full]
  rfl

end

theorem Holds.parted (h : Holds floatText db k data) (hlarge : ocallStoreThreshold < data.length)
    (hlen : data.length ≤ heapMaxSize) :
    Parted floatText db k.name (cut ocallStoreThreshold data) where
  num := length_cut_le_heap hlen
  size := by
    rw [flatten_cut threshold_pos]
    exact hlen
  sum := by
    rw [flatten_cut threshold_pos]
    exact (h.large hlarge).1
  parts := h.parts hlarge

theorem Holds.getUnsafe (h : Holds floatText db k data) (hlen : data.length ≤ heapMaxSize)
    {env : GetEnv} (henv : env.Served) :
    persistGetUnsafe mem env db k.name = some (.success, some data) := by
  by_cases hsmall : data.length ≤ ocallStoreThreshold
  · have hkey : sumKey k.name = slotKey k .sum := rfl
    obtain ⟨hsum, hwhole⟩ := h.small hsmall
    have hwhole' : db k.name = some data := hwhole
    unfold persistGetUnsafe
    rw [hkey, innerGet_missing hsum, henv.whole, innerGet_found hwhole' hlen]
    exact if_neg (by simp [encMalloc_served henv.data hlen])
  · have hread := (h.parted (not_le.mp hsmall) hlen).getUnsafe mem henv
    rw [flatten_cut threshold_pos] at hread
    exact hread

theorem Holds.getSealed (h : Holds floatText db k data) (hlen : data.length ≤ heapMaxSize)
    {env : GetEnv} (henv : env.Served) :
    sealedData mem env db k.name = some (.success, data) := by
  by_cases hsmall : data.length ≤ ocallStoreThreshold
  · have hkey : sumKey k.name = slotKey k .sum := rfl
    obtain ⟨hsum, hwhole⟩ := h.small hsmall
    have hwhole' : db k.name = some data := hwhole
    unfold sealedData
    rw [hkey, innerGet_missing hsum, henv.whole, innerGet_found hwhole' hlen]
    exact if_neg (by simp [encMalloc_served henv.data hlen])
  · have hread := (h.parted (not_le.mp hsmall) hlen).getSealed mem henv
    rw [flatten_cut threshold_pos] at hread
    exact hread

theorem Holds.get (h : Holds floatText db k data) (hlen : data.length ≤ heapMaxSize) {u : Unsealing}
    {value : Bytes} (hunseal : u.unsealData data = some value)
    (htxt : u.encryptTxtLen data = value.length) (hvalue : value.length ≤ heapMaxSize)
    {env : GetEnv} (henv : env.Served) :
    persistGet mem u env db k.name = some (.success, some value) := by
  rw [persistGet, h.getSealed hlen henv]
  dsimp only
  rw [htxt, if_neg (not_not.mpr (encMalloc_served henv.unsealed hvalue)), hunseal]

end

/-! ### Runs of writes -/

/-- A key is always used with the same pair of functions. -/
inductive Variant where
  | sealing
  | plain
  deriving DecidableEq

structure Put (u : Unsealing) where
  key : Key
  value : Buffer
  env : SetEnv u

/-- The database, and beside it the value of the last write to each key that was successful. -/
structure State where
  db : DB
  last : Key → Option Bytes

def empty : State := ⟨fun _ => none, fun _ => none⟩

section
variable (mem : Mem) (floatText : Bytes → Bytes → Bytes) (u : Unsealing) (variant : Key → Variant)

def write (db : DB) (a : Put u) : Option (CrustStatus × DB) :=
  match variant a.key with
  | .sealing => persistSet mem floatText a.env db a.key.name a.value.val
  | .plain => persistSetUnsafe mem floatText a.env db a.key.name a.value.val

def read (env : GetEnv) (db : DB) (k : Key) : Option (CrustStatus × Option Bytes) :=
  match variant k with
  | .sealing => persistGet mem u env db k.name
  | .plain => persistGetUnsafe mem env db k.name

def step (s : State) (a : Put u) : Option State :=
  (write mem floatText u variant s.db a).map fun res =>
    ⟨res.2, if res.1 = .success then Function.update s.last a.key (some a.value.val) else s.last⟩

structure ReadsLast (s : State) : Prop where
  written : ∀ k value env, s.last k = some value → env.Served →
    read mem u variant env s.db k = some (.success, some value)
  unwritten : ∀ k env, s.last k = none →
    read mem u variant env s.db k = some (persistGetFailed, none)

def SumServed (s : State) (a : Put u) : Prop :=
  (s.db (sumKey a.key.name)).isSome = true → a.env.mallocSum = true

end

section
variable {mem : Mem} {floatText : Bytes → Bytes → Bytes} {u : Unsealing} {variant : Key → Variant}

def StandsFor (u : Unsealing) : Variant → Bytes → Bytes → Prop
  | .sealing, data, value => u.unsealData data = some value ∧ u.encryptTxtLen data = value.length
  | .plain, data, value => data = value

structure KeyOk (floatText : Bytes → Bytes → Bytes) (u : Unsealing) (v : Variant) (db : DB)
    (k : Key) (last : Option Bytes) : Prop where
  written : ∀ value, last = some value → value.length ≤ heapMaxSize ∧
    ∃ data, StandsFor u v data value ∧ data.length ≤ heapMaxSize ∧ Holds floatText db k data
  unwritten : last = none → db (slotKey k .sum) = none ∧ db (slotKey k .whole) = none

def Inv (floatText : Bytes → Bytes → Bytes) (u : Unsealing) (variant : Key → Variant) (s : State) :
    Prop := ∀ k, KeyOk floatText u (variant k) s.db k (s.last k)

theorem Holds.congr {db db' : DB} {k : Key} {data : Bytes} (h : Holds floatText db k data)
    (hdb : ∀ s, db' (slotKey k s) = db (slotKey k s)) : Holds floatText db' k data := by
  refine ⟨fun hs => ?_, fun hl => ?_⟩
  · rw [hdb, hdb]
    exact h.small hs
  · refine ⟨?_, fun i p hp => ?_⟩
    · rw [hdb]
      exact (h.large hl).1
    · rw [hdb]
      exact (h.large hl).2 i p hp

theorem KeyOk.frame {v : Variant} {db db' : DB} {k k' : Key} {last : Option Bytes}
    (h : KeyOk floatText u v db k last) (hframe : Frame k' db db') (hne : k ≠ k') :
    KeyOk floatText u v db' k last := by
  have hdb : ∀ s, db' (slotKey k s) = db (slotKey k s) :=
    fun s => hframe _ fun s' heq => hne (slotKey_injective heq).1
  refine ⟨fun value hv => ?_, fun hn => ?_⟩
  · obtain ⟨hlen, data, hstands, hdata, hholds⟩ := h.written value hv
    exact ⟨hlen, data, hstands, hdata, hholds.congr hdb⟩
  · rw [hdb, hdb]
    exact h.unwritten hn

theorem KeyOk.sumOk {v : Variant} {db : DB} {k : Key} {last : Option Bytes}
    (h : KeyOk floatText u v db k last) : SumOk floatText db k := by
  intro text htext
  cases last with
  | none =>
    rw [(h.unwritten rfl).1] at htext
    cases htext
  | some value =>
    obtain ⟨-, data, -, hdata, hholds⟩ := h.written value rfl
    by_cases hsmall : data.length ≤ ocallStoreThreshold
    · rw [(hholds.small hsmall).1] at htext
      cases htext
    · rw [(hholds.large (not_le.mp hsmall)).1] at htext
      cases htext
      exact ⟨_, _, length_cut_le_heap hdata, hdata, rfl⟩

theorem storeData_holds (mem : Mem) {db : DB} {k : Key} {malloc : Bool} (data : Bytes)
    (hsum : SumOk floatText db k) (hmalloc : (db (slotKey k .sum)).isSome = true → malloc = true) :
    ∃ db', storeData mem floatText malloc db k.name data = some (.success, db') ∧
      Holds floatText db' k data ∧ Frame k db db' := by
  by_cases hsmall : data.length ≤ ocallStoreThreshold
  · exact storeData_small hsmall hsum hmalloc
  · exact storeData_large mem floatText db k malloc (not_le.mp hsmall)

theorem write_spec (mem : Mem) {s : State} {a : Put u} (h : Inv floatText u variant s) (hok : SumServed u s a) :
    (∃ status, status ≠ .success ∧ write mem floatText u variant s.db a = some (status, s.db)) ∨
      ∃ db' data, write mem floatText u variant s.db a = some (.success, db') ∧
        StandsFor u (variant a.key) data a.value.val ∧ data.length ≤ heapMaxSize ∧
        Holds floatText db' a.key data ∧ Frame a.key s.db db' := by
  unfold write
  cases hv : variant a.key with
  | plain =>
    obtain ⟨db', hstore, hholds, hframe⟩ := storeData_holds mem a.value.val (h a.key).sumOk hok
    exact .inr ⟨db', a.value.val, hstore, rfl, a.value.property, hholds, hframe⟩
  | sealing =>
    unfold persistSet sealDataMrenclave
    cases hout : a.env.sgxSealData a.value.val with
    | none => exact .inl ⟨.sealDataFailed, by simp, rfl⟩
    | some out =>
      dsimp only
      by_cases hm : encMalloc a.env.mallocSealed out.val.length = true
      · obtain ⟨db', hstore, hholds, hframe⟩ := storeData_holds mem out.val (h a.key).sumOk hok
        refine .inr ⟨db', out.val, ?_, a.env.inverse _ _ hout, out.property, hholds, hframe⟩
        rw [if_neg (not_not.mpr hm)]
        exact hstore
      · refine .inl ⟨.mallocFailed, by simp, ?_⟩
        rw [if_pos hm]

theorem step_plain {v : Key → Variant} {s : State} {a : Put u} {db' : DB}
    (hv : v a.key = .plain)
    (hstore : storeData mem floatText a.env.mallocSum s.db a.key.name a.value.val =
      some (.success, db')) :
    step mem floatText u v s a = some ⟨db', Function.update s.last a.key (some a.value.val)⟩ := by
  have hwrite : write mem floatText u v s.db a = some (.success, db') := by
    rw [write, hv]
    exact hstore
  rw [step, hwrite, Option.map_some, if_pos rfl]

theorem step_inv {s : State} {a : Put u} (hok : SumServed u s a) (h : Inv floatText u variant s) :
    ∃ s', step mem floatText u variant s a = some s' ∧ Inv floatText u variant s' := by
  unfold step
  obtain ⟨status, hne, hw⟩ | ⟨db', data, hw, hstands, hdata, hholds, hframe⟩ :=
    write_spec mem h hok
  · rw [hw, Option.map_some, if_neg hne]
    exact ⟨_, rfl, h⟩
  · rw [hw, Option.map_some, if_pos rfl]
    refine ⟨_, rfl, fun k => ?_⟩
    by_cases hk : k = a.key
    · subst hk
      dsimp only
      rw [Function.update_self]
      refine ⟨fun value hvalue => ?_, fun hn => by cases hn⟩
      cases hvalue
      exact ⟨a.value.property, data, hstands, hdata, hholds⟩
    · dsimp only
      rw [Function.update_of_ne hk]
      exact (h k).frame hframe hk

theorem Inv.readsLast {s : State} (h : Inv floatText u variant s) : ReadsLast mem u variant s where
  written := by
    intro k value env hlast henv
    obtain ⟨hlen, data, hstands, hdata, hholds⟩ := (h k).written value hlast
    unfold read
    cases hv : variant k with
    | plain =>
      rw [hv] at hstands
      obtain rfl : data = value := hstands
      exact hholds.getUnsafe hdata henv
    | sealing =>
      rw [hv] at hstands
      exact hholds.get hdata hstands.1 hstands.2 hlen henv
  unwritten := by
    intro k env hlast
    obtain ⟨hsum, hwhole⟩ := (h k).unwritten hlast
    have hkey : sumKey k.name = slotKey k .sum := rfl
    have hwhole' : s.db k.name = none := hwhole
    unfold read
    cases hv : variant k with
    | plain =>
      dsimp only
      rw [persistGetUnsafe, hkey, innerGet_missing hsum, innerGet_missing hwhole']
      rfl
    | sealing =>
      dsimp only
      rw [persistGet, sealedData, hkey, innerGet_missing hsum, innerGet_missing hwhole']
      rfl

theorem inv_empty : Inv floatText u variant empty := by
  intro k
  refine ⟨fun value h => ?_, fun _ => ⟨rfl, rfl⟩⟩
  cases h

theorem starved_write (mem : Mem) {db : DB} {k : Key} {old : Bytes} (new : Bytes) (h : Holds floatText db k old)
    (hold : ocallStoreThreshold < old.length) (hnew : new.length ≤ ocallStoreThreshold) :
    ∃ db', storeData mem floatText false db k.name new = some (.success, db') ∧
      Holds floatText db' k old := by
  have hne : ∀ s, s ≠ .whole → slotKey k s ≠ k.name := fun s hs => slotKey_ne (t := .whole) hs
  refine ⟨_, storeData_small_eq hnew (.inr rfl),
    ⟨fun hs => absurd hs (by omega), fun hl => ⟨?_, fun i p hp => ?_⟩⟩⟩
  · rw [DB.set, Function.update_of_ne (hne _ (by simp))]
    exact (h.large hl).1
  · rw [DB.set, Function.update_of_ne (hne _ (by simp))]
    exact (h.large hl).2 i p hp

/-- After any writes that find memory for the summaries there are, every key is read as the value
that was last written to it. -/
theorem store_is_a_map {acts : List (Put u)}
    (hok : Runs.Allowed (step mem floatText u variant) (SumServed u) empty acts) :
    ∃ t, Runs.run (step mem floatText u variant) empty acts = some t ∧ ReadsLast mem u variant t := by
  obtain ⟨t, hrun, hinv⟩ := Runs.run_of_allowed (fun _ _ hc h => step_inv hc h) hok inv_empty
  exact ⟨t, hrun, hinv.readsLast⟩

end

/-! ### A large value and a small one -/

def sealHeader : Bytes := List.replicate 560 0

def headed : Unsealing where
  encryptTxtLen b := b.length - sealHeader.length
  unsealData b := if sealHeader.length ≤ b.length then some (b.drop sealHeader.length) else none

def headedSeal (value : Bytes) : Option Buffer :=
  if h : (sealHeader ++ value).length ≤ heapMaxSize then some ⟨sealHeader ++ value, h⟩ else none

theorem headedSeal_inverse (value : Bytes) (out : Buffer) (h : headedSeal value = some out) :
    headed.unsealData out.val = some value ∧ headed.encryptTxtLen out.val = value.length := by
  unfold headedSeal at h
  split_ifs at h
  cases h
  have hlen : (sealHeader ++ value).length = sealHeader.length + value.length := List.length_append
  constructor
  · simp only [headed, hlen, Nat.le_add_right, if_true, List.drop_left]
  · simp only [headed, hlen, Nat.add_sub_cancel_left]

def setEnv (mallocSum : Bool) : SetEnv headed := ⟨true, headedSeal, headedSeal_inverse, mallocSum⟩

def largeValue : Buffer :=
  ⟨List.replicate 5000000 7, by rw [List.length_replicate]; decide⟩

def smallValue : Buffer := ⟨str "\x7b\x7d", by decide⟩

def sealsMetadata (k : Key) : Variant := if k = .metadata then .sealing else .plain

def smallMem : Mem := ⟨fun _ _ => 0⟩

def growAndShrink : List (Put headed) :=
  [⟨.metadata, smallValue, setEnv true⟩, ⟨.metadata, largeValue, setEnv true⟩,
    ⟨.srdInfo, largeValue, setEnv true⟩, ⟨.metadata, smallValue, setEnv true⟩]

theorem store_is_a_map_growAndShrink :
    ocallStoreThreshold < largeValue.val.length ∧
      ∃ t, Runs.run (step smallMem (fun v _ => v) headed sealsMetadata) empty growAndShrink = some t ∧
        ReadsLast smallMem headed sealsMetadata t := by
  refine ⟨by rw [largeValue, List.length_replicate]; decide, store_is_a_map ?_⟩
  refine Runs.allowed_iff.mpr fun before a after s hsplit _ => ?_
  have hmem : a ∈ growAndShrink := by
    rw [hsplit]
    exact List.mem_append_right _ List.mem_cons_self
  intro _
  simp only [growAndShrink, List.mem_cons, List.not_mem_nil, or_false] at hmem
  rcases hmem with rfl | rfl | rfl | rfl
  all_goals rfl

def servedEnv : GetEnv := ⟨true, true, true, fun _ => true, true⟩

theorem starved_run {large : Buffer} (small : Buffer) (hlarge : ocallStoreThreshold < large.val.length)
    (hsmall : small.val.length ≤ ocallStoreThreshold) :
    ∃ t, Runs.run (step smallMem (fun v _ => v) headed sealsMetadata) empty
        [⟨.srdInfo, large, setEnv true⟩, ⟨.srdInfo, small, setEnv false⟩] = some t ∧
      t.last .srdInfo = some small.val ∧
      read smallMem headed sealsMetadata servedEnv t.db .srdInfo =
        some (.success, some large.val) := by
  obtain ⟨db₁, hfirst, hholds, -⟩ :=
    storeData_large smallMem (fun v _ => v) empty.db .srdInfo true hlarge
  obtain ⟨db₂, hsecond, hholds₂⟩ := starved_write smallMem small.val hholds hlarge hsmall
  have hstep₁ := step_plain (a := ⟨.srdInfo, large, setEnv true⟩) (s := empty)
    (v := sealsMetadata) rfl hfirst
  have hstep₂ := step_plain (a := ⟨.srdInfo, small, setEnv false⟩)
    (s := ⟨db₁, Function.update empty.last .srdInfo (some large.val)⟩)
    (v := sealsMetadata) rfl hsecond
  have hlast : Function.update (Function.update empty.last .srdInfo (some large.val)) .srdInfo
      (some small.val) .srdInfo = some small.val := Function.update_self _ _ _
  refine ⟨⟨db₂, Function.update (Function.update empty.last .srdInfo (some large.val)) .srdInfo
    (some small.val)⟩, ?_, hlast, ?_⟩
  · simp only [Runs.run, hstep₁, hstep₂]
  · exact hholds₂.getUnsafe large.property ⟨rfl, rfl, rfl, fun _ => rfl, rfl⟩

theorem small_value_is_hidden :
    ∃ t, Runs.run (step smallMem (fun v _ => v) headed sealsMetadata) empty
        [⟨.srdInfo, largeValue, setEnv true⟩, ⟨.srdInfo, smallValue, setEnv false⟩] = some t ∧
      t.last .srdInfo = some smallValue.val ∧
      read smallMem headed sealsMetadata servedEnv t.db .srdInfo =
        some (.success, some largeValue.val) ∧
      ¬ ReadsLast smallMem headed sealsMetadata t := by
  have hlarge : ocallStoreThreshold < largeValue.val.length := by
    rw [largeValue, List.length_replicate]
    decide
  obtain ⟨t, hrun, hlast, hread⟩ := starved_run smallValue hlarge (by decide)
  refine ⟨t, hrun, hlast, hread, fun h => ?_⟩
  have hsame := h.written .srdInfo smallValue.val servedEnv hlast ⟨rfl, rfl, rfl, fun _ => rfl, rfl⟩
  rw [hread] at hsame
  have hval : largeValue.val = smallValue.val := by
    simpa only [Option.some.injEq, Prod.mk.injEq, true_and] using hsame
  rw [hval] at hlarge
  exact absurd hlarge (by decide)

end CrustSworker.Persistence

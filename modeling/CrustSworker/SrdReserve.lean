import CrustSworker.JsonLayout
import CrustSworker.SrdPass
import CrustSworker.SrdSpread

/-!
# Giving srd space back

The app gives space back in two ways. `srd_check_reserved` looks at the space that is left under
every path of the stored srd info and sends the enclave a document with what is missing there;
`srd_change` with a negative number asks for so many hashes less. Both go by the info that the
enclave stored last, which need not be what it holds when the request arrives.
-/

namespace CrustSworker.SrdReserve

open OrderedMap Srd SrdDecrease SrdSpread RoundRobin

variable {τ : Type}

/-! ### `srd_check_reserved` -/

def delSpace (reserved avail : Nat) (assigned : Int) : Int :=
  let delSpace := toLong (toLong reserved - avail)
  if delSpace > assigned then assigned else delSpace

def delInfo (space : Space) (reserved : Nat) (del : Option JSON) (entry : Bytes × JSON) :
    Option JSON :=
  let availSpace := getAvailSpaceUnderDirG space entry.1
  if toLong availSpace < toLong reserved then
    some ((del.getD .null).put entry.1
      (.integral (delSpace reserved availSpace (entry.2.get (str "assigned")).toInt)))
  else del

section
variable (floatText : Bytes → Bytes → Bytes) (mem : Mem)

/-- One round of the loop over the stored info: the text for `Ecall_srd_update_metadata`. -/
def srdCheckReserved (space : Space) (reserved : Nat) (srdInfoJson : JSON) : Option Bytes :=
  (srdInfoJson.objectRange.foldl (delInfo space reserved) none).map fun del => del.dump floatText

def reserveRound (answer : Nat → CrustStatus) (space : Space) (reserved : Nat)
    (srdInfoJson : JSON) (wl : Workload τ) : Option (Workload τ) :=
  match srdCheckReserved floatText space reserved srdInfoJson with
  | none => some wl
  | some delInfoStr => srdUpdateMetadata mem answer wl delInfoStr

/-! ### `srd_change` for less space -/

def assignedDisks (srdInfoJson : JSON) : List (Bytes × Int) :=
  (srdInfoJson.objectRange.filter fun entry =>
    entry.2.hasKey (str "assigned") && (entry.2.get (str "assigned")).toInt ≠ 0).map fun entry =>
      (entry.1, (entry.2.get (str "assigned")).toInt)

def takeAssigned (disk : Bytes × Int) : Option (Bytes × Int) :=
  if disk.2 > 0 then some (disk.1, disk.2 - 1) else none

def getDecreaseSrdInfo (fuel : Nat) (stored : Option JSON) (trueSrdCapacity : Nat) :
    Option (Nat × List (Bytes × Int)) :=
  match stored with
  | none => some (trueSrdCapacity, [])
  | some srdInfoJson =>
    let disks := assignedDisks srdInfoJson
    let totalAssigned := (disks.map fun disk => sizeT disk.2).sum % 2 ^ 64
    (cycle takeAssigned fuel (min totalAssigned trueSrdCapacity) [] disks).map fun r =>
      (min totalAssigned trueSrdCapacity, r.1)

def srdChangeLess (answer : Nat → CrustStatus) (fuel : Nat) (stored : Option JSON)
    (wl : Workload τ) (trueDecrease : Nat) : Option (Workload τ × Int) :=
  (getDecreaseSrdInfo fuel stored trueDecrease).bind fun info =>
    if info.1 = 0 then some (wl, 0)
    else
      (srdDecrease mem answer wl (toLong info.1) []).map fun r => (r.2, Int.bmod r.1 (2 ^ 32))

end

/-! ### The stored info -/

structure Counted (fields : List (Bytes × JSON)) : Prop where
  sorted : Sorted ltBytes fields
  counts : ∀ entry ∈ fields, 0 ≤ (entry.2.get (str "assigned")).toInt ∧
    (entry.2.get (str "assigned")).toInt < 2 ^ 63

/-- The info as the app has loaded it: the keys have been through `json_escape`, and none of them
holds a mark that a loader takes out. -/
structure Stored (fields : List (Bytes × JSON)) : Prop extends Counted fields where
  keys : ∀ entry ∈ fields, (∃ k, entry.1 = jsonEscape k) ∧ JsonParse.Untagged entry.1

def Current (fields : List (Bytes × JSON)) (wl : Workload τ) : Prop :=
  ∀ path, assigned (.object fields) path = (hashsOf wl.srdPath2hashs path).length

def missing (space : Space) (reserved : Nat) (fields : List (Bytes × JSON)) (path : Bytes) : Nat :=
  min (reserved - getAvailSpaceUnderDirG space path) (assigned (.object fields) path).toNat

/-! ### The document of a round -/

section
variable {space : Space} {reserved : Nat}

theorem delSpace_eq (hreserved : reserved < 2 ^ 63) {avail : Nat} (hshort : avail < reserved)
    {assigned : Int} (hassigned : 0 ≤ assigned) :
    delSpace reserved avail assigned = min (reserved - avail) assigned.toNat := by
  have hdel : toLong (toLong reserved - avail) = (reserved - avail : Nat) := by
    rw [toLong_of_lt hreserved, ← Nat.cast_sub hshort.le, toLong_of_lt (by omega)]
  rw [delSpace, hdel]
  split_ifs <;> omega

def fieldsOf (del : Option JSON) : List (Bytes × JSON) := (del.getD .null).objectRange

structure Request (del : Option JSON) : Prop where
  object : ∀ doc, del = some doc → doc = .object (fieldsOf del)
  loaded : JsonParse.Loaded (del.getD .null)
  plain : JsonParse.Plain (del.getD .null)

theorem request_none : Request none := ⟨nofun, .null, .null⟩

theorem fieldsOf_put {del : Option JSON} (h : Request del) (key : Bytes) (v : JSON) :
    fieldsOf (some ((del.getD .null).put key v)) = insertKey ltBytes key v (fieldsOf del) := by
  cases del with
  | none => rfl
  | some doc =>
    rw [Option.getD_some, h.object doc rfl]
    rfl

theorem Request.put {del : Option JSON} (h : Request del) {key : Bytes}
    (hkey : (∃ k, key = jsonEscape k) ∧ JsonParse.Untagged key) {n : Int}
    (hn : JsonParse.IsLong n) :
    Request (some ((del.getD .null).put key (.integral n))) := by
  refine ⟨fun doc hdoc => ?_, h.loaded.put hkey.1 (.integral hn), h.plain.put hkey.2 (.integral n)⟩
  rw [fieldsOf_put h, ← Option.some.inj hdoc]
  cases del with
  | none => rfl
  | some doc =>
    rw [Option.getD_some, h.object doc rfl]
    rfl

def amount (ds : List (Bytes × JSON)) (path : Bytes) : Nat :=
  weightAt (fun v => sizeT v.toInt) ds path

theorem amount_insertKey (ds : List (Bytes × JSON)) (key path : Bytes) (v : JSON) :
    amount (insertKey ltBytes key v ds) path =
      if path = key then sizeT v.toInt else amount ds path := by
  unfold amount weightAt
  split_ifs with h
  · rw [h, findKey_insertKey_self]
    rfl
  · rw [findKey_insertKey_ne ltBytes h]

theorem amount_absent {ds : List (Bytes × JSON)} {path : Bytes} (h : ∀ q ∈ ds, q.1 ≠ path) :
    amount ds path = 0 := by
  rw [amount, weightAt, findKey_none h]
  rfl

theorem Stored.tail {entry : Bytes × JSON} {fields : List (Bytes × JSON)}
    (h : Stored (entry :: fields)) : Stored fields where
  sorted := (List.pairwise_cons.mp h.sorted).2
  keys := (List.forall_mem_cons.mp h.keys).2
  counts := (List.forall_mem_cons.mp h.counts).2

theorem missing_absent {fields : List (Bytes × JSON)} {path : Bytes}
    (h : ∀ q ∈ fields, q.1 ≠ path) : missing space reserved fields path = 0 := by
  have hzero : assigned (.object fields) path = 0 := by
    rw [assigned, JSON.get, findKey_none h]
    rfl
  rw [missing, hzero]
  exact Nat.min_zero _

/-- By induction on the entries; every path is met at most once. -/
theorem foldl_delInfo (hreserved : reserved < 2 ^ 63) {fields : List (Bytes × JSON)}
    (h : Stored fields) {del : Option JSON} (hdel : Request del)
    (hnew : ∀ entry ∈ fields, amount (fieldsOf del) entry.1 = 0) :
    Request (fields.foldl (delInfo space reserved) del) ∧ ∀ path,
      amount (fieldsOf (fields.foldl (delInfo space reserved) del)) path =
        amount (fieldsOf del) path + missing space reserved fields path := by
  induction fields generalizing del with
  | nil =>
    refine ⟨hdel, fun path => ?_⟩
    rw [missing_absent (List.forall_mem_nil _)]
    rfl
  | cons entry fields ih =>
    obtain ⟨key, v⟩ := entry
    obtain ⟨hcount, hlong⟩ := h.counts (key, v) List.mem_cons_self
    have hother := h.sorted.head_ne isOrder_ltBytes
    have hrest := List.forall_mem_cons.mp hnew
    have hmissing : ∀ path, missing space reserved ((key, v) :: fields) path =
        (if path = key then min (reserved - getAvailSpaceUnderDirG space key)
          (v.get (str "assigned")).toInt.toNat else 0) + missing space reserved fields path := by
      intro path
      split_ifs with hpath
      · rw [hpath, missing_absent hother]
        simp only [missing, assigned, JSON.get, findKey, if_true, Option.getD_some, Nat.add_zero]
      · simp only [missing, assigned, JSON.get, findKey, if_neg hpath, Nat.zero_add]
    rw [List.foldl_cons]
    by_cases hshort : getAvailSpaceUnderDirG space key < reserved
    · have hdel' : delInfo space reserved del (key, v) = some ((del.getD .null).put key
          (.integral (min (reserved - getAvailSpaceUnderDirG space key)
            (v.get (str "assigned")).toInt.toNat : Nat))) := by
        rw [delInfo, if_pos, delSpace_eq hreserved hshort hcount]
        rw [toLong_of_lt hreserved, toLong_of_lt (Nat.lt_trans hshort hreserved)]
        exact Int.ofNat_lt.mpr hshort
      have hput := hdel.put (h.keys (key, v) List.mem_cons_self)
        (n := (min (reserved - getAvailSpaceUnderDirG space key)
          (v.get (str "assigned")).toInt.toNat : Nat)) ⟨by omega, by omega⟩
      have hamount : ∀ path, amount (fieldsOf (delInfo space reserved del (key, v))) path =
          if path = key then min (reserved - getAvailSpaceUnderDirG space key)
            (v.get (str "assigned")).toInt.toNat else amount (fieldsOf del) path := by
        intro path
        rw [hdel', fieldsOf_put hdel, amount_insertKey]
        split_ifs
        · rw [JSON.toInt, sizeT]
          omega
        · rfl
      rw [← hdel'] at hput
      obtain ⟨hreq, hsum⟩ := ih h.tail hput fun e he => by
        rw [hamount, if_neg (hother e he)]
        exact hrest.2 e he
      refine ⟨hreq, fun path => ?_⟩
      rw [hsum, hamount, hmissing]
      split_ifs with hpath
      · rw [hpath, hrest.1, Nat.zero_add]
      · rw [Nat.zero_add]
    · have hdel' : delInfo space reserved del (key, v) = del := by
        have hlt := getAvailSpaceUnderDirG_lt space key
        rw [delInfo, if_neg]
        rw [toLong_of_lt hreserved, toLong_of_lt (Nat.lt_trans hlt (by decide))]
        exact fun hlt => hshort (Int.ofNat_lt.mp hlt)
      obtain ⟨hreq, hsum⟩ := ih h.tail hdel hrest.2
      rw [hdel']
      refine ⟨hreq, fun path => ?_⟩
      rw [hsum, hmissing, Nat.sub_eq_zero_of_le (Nat.le_of_not_lt hshort), Nat.zero_min, ite_self,
        Nat.zero_add]

/-- The hashes that a document leaves, by induction on its fields. -/
theorem hashsOf_updatePaths (answer : Nat → CrustStatus) {ds : List (Bytes × JSON)}
    (hds : Sorted ltBytes ds) (u : Update) (path : Bytes) :
    hashsOf (ds.foldl (updatePath answer) u).m path =
      (hashsOf u.m path).take ((hashsOf u.m path).length - amount ds path) := by
  induction ds generalizing u with
  | nil => exact (List.take_length (l := hashsOf u.m path)).symm
  | cons entry ds ih =>
    have hother := hds.head_ne isOrder_ltBytes
    have hone : hashsOf (updatePath answer u entry).m path =
        if path = entry.1 then (hashsOf u.m path).take
          ((hashsOf u.m path).length - sizeT entry.2.toInt) else hashsOf u.m path := by
      rw [updatePath, SrdPass.hashsOf_popHashs]
      dsimp only
      rw [SrdSampling.hashsOf_created, SrdSampling.hashsOf_created, realDeletedNum]
      split_ifs with hpath
      · rw [hpath]
        congr 1
        omega
      · rfl
    have hamount : amount (entry :: ds) path =
        if path = entry.1 then sizeT entry.2.toInt else amount ds path := by
      simp only [amount, weightAt, findKey]
      split_ifs <;> rfl
    rw [List.foldl_cons, ih (List.pairwise_cons.mp hds).2, hone, hamount]
    split_ifs with hpath
    · rw [amount_absent (hpath ▸ hother), Nat.sub_zero, List.take_length]
    · rfl

theorem Request.sorted {del : Option JSON} (h : Request del) : Sorted ltBytes (fieldsOf del) := by
  cases del with
  | none => exact sorted_nil _
  | some doc =>
    have hloaded := h.loaded
    rw [Option.getD_some, h.object doc rfl] at hloaded
    cases hloaded with
    | object sorted _ _ => exact sorted

end

/-- What the enclave reads is what the app has written, so that a round takes from every path its
last hashes, as many as are missing there and no more. If the info is current and every deletion
gives its gigabyte back, the reserve is there again afterwards or nothing is left to give. -/
theorem reserve_round {floatText : Bytes → Bytes → Bytes} {mem : Mem}
    {answer : Nat → CrustStatus} {space : Space} {reserved : Nat} {fields : List (Bytes × JSON)}
    {wl : Workload τ} (hreserved : reserved < 2 ^ 63) (h : Stored fields) :
    ∃ wl', reserveRound floatText mem answer space reserved (.object fields) wl = some wl' ∧
      (∀ path, hashsOf wl'.srdPath2hashs path = (hashsOf wl.srdPath2hashs path).take
        ((hashsOf wl.srdPath2hashs path).length - missing space reserved fields path)) ∧
      (Current fields wl → ∀ space' : Space,
        (∀ path, getAvailSpaceUnderDirG space path + (hashsOf wl.srdPath2hashs path).length ≤
          getAvailSpaceUnderDirG space' path + (hashsOf wl'.srdPath2hashs path).length) →
        ∀ path, reserved ≤ getAvailSpaceUnderDirG space' path ∨
          hashsOf wl'.srdPath2hashs path = []) := by
  obtain ⟨hreq, hamount⟩ := @foldl_delInfo space reserved hreserved fields h none request_none
    fun _ _ => rfl
  have hzero : ∀ path, amount (fieldsOf none) path = 0 := fun _ => rfl
  have htaken : ∃ wl',
      reserveRound floatText mem answer space reserved (.object fields) wl = some wl' ∧
      ∀ path, hashsOf wl'.srdPath2hashs path = (hashsOf wl.srdPath2hashs path).take
        ((hashsOf wl.srdPath2hashs path).length - missing space reserved fields path) := by
    cases hdel : fields.foldl (delInfo space reserved) none with
    | none =>
      refine ⟨wl, ?_, fun path => ?_⟩
      · rw [reserveRound, srdCheckReserved, JSON.objectRange, hdel]
        rfl
      · have hnone := hamount path
        rw [hdel, hzero, Nat.zero_add] at hnone
        rw [← hnone, Nat.sub_zero, List.take_length]
    | some doc =>
      rw [hdel] at hreq hamount
      have hobject := hreq.object doc rfl
      have hload : JsonParse.load mem (doc.dump floatText) = .ok doc := by
        have hloaded := hreq.loaded
        have hplain := hreq.plain
        rw [Option.getD_some, hobject] at hloaded hplain
        rw [hobject]
        exact JsonParse.load_dump floatText hloaded hplain
      let u := (fieldsOf (some doc)).foldl (updatePath answer) ⟨wl.srdPath2hashs, wl.srdInfoJson, 0⟩
      refine ⟨{ wl with srdPath2hashs := u.m, srdInfoJson := u.info }, ?_, fun path => ?_⟩
      · rw [reserveRound, srdCheckReserved, JSON.objectRange, hdel, Option.map_some]
        dsimp only
        rw [srdUpdateMetadata, hload]
        rfl
      · dsimp only [u]
        rw [hashsOf_updatePaths answer hreq.sorted, hamount, hzero, Nat.zero_add]
  obtain ⟨wl', hrun, hmap⟩ := htaken
  refine ⟨wl', hrun, hmap, fun hcurrent space' hfreed path => ?_⟩
  have hfree := hfreed path
  have hcount := hcurrent path
  rw [hmap, List.length_take, missing, hcount, Int.toNat_natCast] at hfree
  by_cases hall : (hashsOf wl.srdPath2hashs path).length ≤ missing space reserved fields path
  · right
    rw [hmap, Nat.sub_eq_zero_of_le hall, List.take_zero]
  · left
    rw [missing, hcount, Int.toNat_natCast] at hall
    omega

/-! ### A smaller number -/

section
variable {mem : Mem} {answer : Nat → CrustStatus} {wl : Workload τ}

def storedTotal (fields : List (Bytes × JSON)) : Nat :=
  (fields.map fun entry => (entry.2.get (str "assigned")).toInt.toNat).sum

theorem countP_ge (t n : Nat) : (List.range n).countP (fun i => decide (t ≤ i)) = n - t := by
  induction n with
  | zero => simp
  | succ n ih =>
    rw [List.range_succ, List.countP_append, ih, List.countP_singleton]
    split_ifs with h
    · have := of_decide_eq_true h
      omega
    · have : ¬ t ≤ n := fun hle => h (decide_eq_true hle)
      omega

theorem chosenBy_nil (m : PathMap) (k : Nat) :
    chosenBy m [] k = (m.map fun entry => min k entry.2.length).sum := by
  refine congrArg List.sum (List.map_congr_left fun entry _ => ?_)
  have hlast : (List.range entry.2.length).countP (isChosen [] k entry) =
      (List.range entry.2.length).countP fun i => decide (entry.2.length - k ≤ i) := by
    refine List.countP_congr fun i _ => ?_
    have hnil : idxsOf ([] : DelIndex) entry.1 = [] := rfl
    simp only [isChosen, hnil, List.not_mem_nil, decide_false, Bool.false_or, decide_eq_true_eq]
    omega
  rw [hlast, countP_ge]
  omega

theorem chosenBy_succ_le (m : PathMap) (k : Nat) :
    chosenBy m [] (k + 1) ≤ chosenBy m [] k + m.countP fun entry => decide (entry.2 ≠ []) := by
  rw [chosenBy_nil, chosenBy_nil]
  induction m with
  | nil => exact Nat.le_refl _
  | cons entry m ih =>
    rw [List.map_cons, List.map_cons, List.sum_cons, List.sum_cons, List.countP_cons]
    by_cases hnil : entry.2 = []
    · rw [hnil]
      simp only [List.length_nil, Nat.min_zero, Nat.zero_add, ne_eq, not_true_eq_false,
        decide_false, Bool.false_eq_true, if_false, Nat.add_zero]
      exact ih
    · rw [if_pos (decide_eq_true hnil)]
      omega

theorem takeAssigned_some {a b : Bytes × Int} (h : takeAssigned a = some b) :
    b.2.toNat + 1 = a.2.toNat := by
  unfold takeAssigned at h
  split_ifs at h with hpos
  rw [← Option.some.inj h]
  dsimp only
  omega

theorem takeAssigned_none {a : Bytes × Int} (h : takeAssigned a = none) : a.2.toNat = 0 := by
  unfold takeAssigned at h
  split_ifs at h with hpos
  omega

theorem sum_assignedDisks (fields : List (Bytes × JSON)) :
    ((assignedDisks (.object fields)).map fun disk => disk.2.toNat).sum = storedTotal fields := by
  rw [assignedDisks, JSON.objectRange, storedTotal]
  induction fields with
  | nil => rfl
  | cons entry fields ih =>
    rw [List.filter_cons, List.map_cons, List.sum_cons]
    split_ifs with hkept
    · rw [List.map_cons, List.map_cons, List.sum_cons, ih]
    · have hzero : (entry.2.get (str "assigned")).toInt = 0 := by
        by_contra hne
        have hkey : entry.2.hasKey (str "assigned") = false := by
          by_contra hkey
          rw [Bool.not_eq_false] at hkey
          exact hkept (by rw [hkey, Bool.true_and]; exact decide_eq_true hne)
        refine hne ?_
        cases hv : entry.2 with
        | object m =>
          rw [hv, JSON.hasKey, Option.isSome_eq_false_iff, Option.isNone_iff_eq_none] at hkey
          rw [JSON.get, hkey]
          rfl
        | _ => rfl
      rw [ih, hzero]
      simp

theorem getDecreaseSrdInfo_ends {fields : List (Bytes × JSON)} (h : Counted fields)
    (htotal : storedTotal fields < 2 ^ 63) (n : Nat) :
    ∃ disks, ∀ fuel, fields.length * n ≤ fuel →
      getDecreaseSrdInfo fuel (some (.object fields)) n =
        some (min (storedTotal fields) n, disks) := by
  have hsize : ((assignedDisks (.object fields)).map fun disk => sizeT disk.2).sum =
      storedTotal fields := by
    rw [← sum_assignedDisks]
    refine congrArg List.sum (List.map_congr_left fun disk hdisk => ?_)
    obtain ⟨entry, hentry, rfl⟩ := List.mem_map.mp hdisk
    have hcount := h.counts entry (List.mem_filter.mp hentry).1
    dsimp only
    rw [sizeT]
    omega
  have hlen : (assignedDisks (.object fields)).length ≤ fields.length := by
    rw [assignedDisks, List.length_map]
    exact List.length_filter_le _ _
  have hacc : min (storedTotal fields) n ≤
      ((assignedDisks (.object fields)).map fun disk => disk.2.toNat).sum := by
    rw [sum_assignedDisks]
    exact Nat.min_le_left _ _
  obtain ⟨r, hr⟩ := cycle_total (fun _ _ => takeAssigned_some) (fun _ => takeAssigned_none) hacc
  refine ⟨r.1, fun fuel hfuel => ?_⟩
  have hfuel' : (assignedDisks (.object fields)).length * min (storedTotal fields) n ≤ fuel :=
    (Nat.mul_le_mul hlen (Nat.min_le_right _ _)).trans hfuel
  rw [getDecreaseSrdInfo, hsize, Nat.mod_eq_of_lt (Nat.lt_trans htotal (by decide)),
    hr fuel hfuel', Option.map_some]

/-- A request for `n` hashes less ends and takes the last hashes of every list in rounds. It takes
as many as are stored and there, and at most one more for every further list. -/
theorem srdChangeLess_takes {fields : List (Bytes × JSON)} (hm : Sorted ltBytes wl.srdPath2hashs)
    (h : Counted fields) (htotal : storedTotal fields < 2 ^ 63) {n : Nat} (hn : n < 2 ^ 63) :
    ∃ wl' capacity k taken, (∀ fuel, fields.length * n ≤ fuel →
        srdChangeLess mem answer fuel (some (.object fields)) wl n = some (wl', capacity)) ∧
      (∀ path, hashsOf wl'.srdPath2hashs path = (hashsOf wl.srdPath2hashs path).take
        ((hashsOf wl.srdPath2hashs path).length - k)) ∧
      srdTotal wl'.srdPath2hashs + taken = srdTotal wl.srdPath2hashs ∧
      min (min (storedTotal fields) n) (srdTotal wl.srdPath2hashs) ≤ taken ∧
      taken ≤ min (min (storedTotal fields) n) (srdTotal wl.srdPath2hashs) +
        ((wl.srdPath2hashs.countP fun entry => decide (entry.2 ≠ [])) - 1) := by
  obtain ⟨disks, hends⟩ := getDecreaseSrdInfo_ends h htotal n
  by_cases hzero : min (storedTotal fields) n = 0
  · refine ⟨wl, 0, 0, 0, fun fuel hfuel => ?_, fun path => ?_, rfl, by omega, Nat.zero_le _⟩
    · rw [srdChangeLess, hends fuel hfuel, Option.bind_some]
      exact if_pos hzero
    · rw [Nat.sub_zero, List.take_length]
  · have hstart : Chosen wl.srdPath2hashs [] :=
      ⟨sorted_nil _, List.forall_mem_nil _, List.forall_mem_nil _⟩
    have hlong : toLong (min (storedTotal fields) n : Nat) = (min (storedTotal fields) n : Nat) :=
      toLong_of_lt (by omega)
    have hpos : 0 < toLong (min (storedTotal fields) n : Nat) := by
      rw [hlong]
      omega
    obtain ⟨num, wl', k, hrun, ⟨del, hcov, hmap⟩, hsum, hge, hlow⟩ :=
      srdDecrease_spec mem answer hm hstart hpos
    rw [hlong] at hge hlow
    refine ⟨wl', Int.bmod num (2 ^ 32), k, chosenBy wl.srdPath2hashs [] k, fun fuel hfuel => ?_,
      fun path => (hmap path).trans (SrdPass.removeAt_covered hcov path), hsum, by omega, ?_⟩
    · rw [srdChangeLess, hends fuel hfuel, Option.bind_some]
      dsimp only
      rw [if_neg hzero, hrun, Option.map_some]
    · cases k with
      | zero =>
        rw [chosenBy_nil]
        simp
      | succ k =>
        have hless := hlow k (Nat.lt_succ_self k)
        have hmore := chosenBy_succ_le wl.srdPath2hashs k
        omega

end

/-! ### Two paths -/

def twoFields : List (Bytes × JSON) :=
  [(str "/a", .object [(str "assigned", .integral 2)]),
    (str "/b", .object [(str "assigned", .integral 1)])]

theorem twoFields_stored : Stored twoFields where
  sorted := List.pairwise_pair.mpr (by decide)
  keys entry he := by
    rcases List.mem_pair.mp he with rfl | rfl
    · exact ⟨⟨str "/a", by decide⟩, by decide⟩
    · exact ⟨⟨str "/b", by decide⟩, by decide⟩
  counts entry he := by
    rcases List.mem_pair.mp he with rfl | rfl
    · exact ⟨by decide, by decide⟩
    · exact ⟨by decide, by decide⟩

theorem reserve_round_two :
    ∃ wl', reserveRound (fun _ _ => []) SrdInfo.noMem (fun _ => .success) twoSpaces 52
        (.object twoFields) twoPaths = some wl' ∧
      (hashsOf wl'.srdPath2hashs (str "/a")).length = 2 ∧
      hashsOf wl'.srdPath2hashs (str "/b") = [] := by
  have hround : ∃ wl', reserveRound (fun _ _ => []) SrdInfo.noMem (fun _ => .success) twoSpaces 52
      (.object twoFields) twoPaths = some wl' ∧ _ :=
    reserve_round (by decide) twoFields_stored
  obtain ⟨wl', hrun, hmap, -⟩ := hround
  refine ⟨wl', hrun, ?_, ?_⟩
  · rw [hmap]
    decide
  · rw [hmap]
    decide

theorem srdChangeLess_two :
    ∃ wl' capacity k taken, (∀ fuel, twoFields.length * 1 ≤ fuel →
        srdChangeLess SrdInfo.noMem (fun _ => .success) fuel (some (.object twoFields)) twoPaths 1 =
          some (wl', capacity)) ∧
      (∀ path, hashsOf wl'.srdPath2hashs path = (hashsOf twoPaths.srdPath2hashs path).take
        ((hashsOf twoPaths.srdPath2hashs path).length - k)) ∧
      srdTotal wl'.srdPath2hashs + taken = srdTotal twoPaths.srdPath2hashs ∧
      min (min (storedTotal twoFields) 1) (srdTotal twoPaths.srdPath2hashs) ≤ taken ∧
      taken ≤ min (min (storedTotal twoFields) 1) (srdTotal twoPaths.srdPath2hashs) +
        ((twoPaths.srdPath2hashs.countP fun entry => decide (entry.2 ≠ [])) - 1) :=
  srdChangeLess_takes twoPaths_sorted twoFields_stored.toCounted (by decide) (by decide)

end CrustSworker.SrdReserve

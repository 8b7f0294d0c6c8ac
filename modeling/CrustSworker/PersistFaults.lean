import CrustSworker.PersistLayout

/-!
# The store when the database fails

The same functions with an answer of its own for every operation of the database, and with
records that the host makes up. `persist_set` stops at a part that cannot be written;
`persist_set_unsafe` and `persist_get_unsafe` go on, and the status of the next operation takes
the place of the one before. No read compares what it copies with the size of its buffer.
-/

namespace CrustSworker.PersistFaults

open JsonParse Persistence PersistLayout Pieces

structure Faults where
  setPart : Nat → CrustStatus
  setSum : CrustStatus
  setWhole : CrustStatus
  getSum : CrustStatus
  delPart : Nat → CrustStatus
  delSum : CrustStatus

def isOk (status : CrustStatus) : Bool := decide (status = .success)

def ocallPersistSet (status : CrustStatus) (db : DB) (key value : Bytes) : CrustStatus × DB :=
  (status, if isOk status then db.set key value else db)

def ocallPersistDel (status : CrustStatus) (db : DB) (key : Bytes) : DB :=
  if isOk status then db.del key else db

section
variable (f : Faults) (key : Bytes)

def storePartsChecked (db : DB) (index : Nat) (rest : Bytes) : CrustStatus × DB × Nat :=
  if _h : rest = [] then (.success, db, index)
  else if ¬ isOk (f.setPart index) then (f.setPart index, db, index)
  else
    storePartsChecked (db.set (partKey key index) (rest.take ocallStoreThreshold)) (index + 1)
      (rest.drop ocallStoreThreshold)
termination_by rest.length
decreasing_by
  have hpos := List.length_pos_iff.mpr _h
  rw [List.length_drop, ocallStoreThreshold]
  omega

def storePartsUnchecked (db : DB) (index : Nat) (rest : Bytes) : DB × Nat :=
  if _h : rest = [] then (db, index)
  else
    storePartsUnchecked
      (ocallPersistSet (f.setPart index) db (partKey key index) (rest.take ocallStoreThreshold)).2
      (index + 1) (rest.drop ocallStoreThreshold)
termination_by rest.length
decreasing_by
  have hpos := List.length_pos_iff.mpr _h
  rw [List.length_drop, ocallStoreThreshold]
  omega

variable (mem : Mem) (floatText : Bytes → Bytes → Bytes)

def storeSmall (malloc : Bool) (db : DB) (data : Bytes) : Option (CrustStatus × DB) :=
  match (if isOk f.getSum then innerOcallPersistGet malloc db (sumKey key) else (f.getSum, [])) with
  | (.success, text) =>
    match load mem text with
    | .error _ => none
    | .ok sum =>
      let pieceNum := toUint32 (sum.get persistSum).toInt
      let db := (List.range pieceNum).foldl
        (fun db i => ocallPersistDel (f.delPart i) db (partKey key i)) db
      some (ocallPersistSet f.setWhole (ocallPersistDel f.delSum db (sumKey key)) key data)
  | _ => some (ocallPersistSet f.setWhole db key data)

def persistSetUnsafeOn (malloc : Bool) (db : DB) (value : Bytes) : Option (CrustStatus × DB) :=
  if value.length > ocallStoreThreshold then
    let stored := storePartsUnchecked f key db 0 value
    some (ocallPersistSet f.setSum stored.1 (sumKey key) (sumText floatText stored.2 value.length))
  else storeSmall f key mem malloc db value

def persistSetOn {u : Unsealing} (env : SetEnv u) (db : DB) (value : Bytes) :
    Option (CrustStatus × DB) :=
  match sealDataMrenclave env value with
  | (.success, sealed) =>
    if sealed.length > ocallStoreThreshold then
      match storePartsChecked f key db 0 sealed with
      | (.success, db, index) =>
        some (ocallPersistSet f.setSum db (sumKey key) (sumText floatText index sealed.length))
      | (status, db, _) => some (status, db)
    else storeSmall f key mem env.mallocSum db sealed
  | (status, _) => some (status, db)

end

theorem slotKey_ne_part (k : Key) {s : Slot} (hs : ∀ i, s ≠ .part i) (i : Nat) :
    slotKey k s ≠ partKey k.name i := slotKey_ne (k := k) (t := .part i) (hs i)

/-! ### The loops -/

section
variable {f : Faults} {key : Bytes}

theorem storePartsUnchecked_eq (db : DB) (index : Nat) (data : Bytes) :
    storePartsUnchecked f key db index data =
      (putWhere (partKey key) (fun i => isOk (f.setPart i)) index (cut ocallStoreThreshold data) db,
        index + (cut ocallStoreThreshold data).length) := by
  refine cut_induction (P := fun rest ps => ∀ db index, storePartsUnchecked f key db index rest =
    (putWhere (partKey key) (fun i => isOk (f.setPart i)) index ps db, index + ps.length))
    threshold_pos ?_ ?_ data db index
  · intro db index
    rw [storePartsUnchecked, dif_pos rfl]
    rfl
  · intro rest hrest ih db index
    rw [storePartsUnchecked, dif_neg hrest, ih, putWhere, List.length_cons, ocallPersistSet, DB.set]
    exact congrArg _ (by omega)

/-- The loop has stored the first `j` parts, all of them or up to one that fails. -/
inductive Stored (f : Faults) (ps : List Bytes) (index j : Nat) : CrustStatus → Prop
  | all (hj : j = ps.length) : Stored f ps index j .success
  | fails (hj : j < ps.length) (hf : f.setPart (index + j) ≠ .success) :
      Stored f ps index j (f.setPart (index + j))

theorem storePartsChecked_spec (f : Faults) (key : Bytes) (db : DB) (index : Nat) (data : Bytes) :
    ∃ j status, Stored f (cut ocallStoreThreshold data) index j status ∧
      (∀ i < j, f.setPart (index + i) = .success) ∧
      storePartsChecked f key db index data =
        (status, putFrom (partKey key) index ((cut ocallStoreThreshold data).take j) db, index + j) := by
  refine cut_induction (P := fun rest ps => ∀ db index, ∃ j status, Stored f ps index j status ∧
    (∀ i < j, f.setPart (index + i) = .success) ∧ storePartsChecked f key db index rest =
      (status, putFrom (partKey key) index (ps.take j) db, index + j))
    threshold_pos ?_ ?_ data db index
  · intro db index
    refine ⟨0, .success, .all rfl, fun i hi => absurd hi (by omega), ?_⟩
    rw [storePartsChecked, dif_pos rfl]
    rfl
  · intro rest hrest ih db index
    rw [storePartsChecked, dif_neg hrest]
    by_cases hok : isOk (f.setPart index) = true
    · obtain ⟨j, status, hstored, hbefore, heq⟩ :=
        ih (db.set (partKey key index) (rest.take ocallStoreThreshold)) (index + 1)
      have hshift : ∀ i, index + 1 + i = index + (i + 1) := fun i => by omega
      rw [if_neg (not_not.mpr hok), heq]
      refine ⟨j + 1, status, ?_, fun i hi => ?_, ?_⟩
      · cases hstored with
        | all hj => exact .all (by rw [hj, List.length_cons])
        | fails hj hf =>
          rw [hshift] at hf ⊢
          exact .fails (by rw [List.length_cons]; omega) hf
      · cases i with
        | zero => exact of_decide_eq_true hok
        | succ i =>
          rw [← hshift]
          exact hbefore i (by omega)
      · rw [List.take_succ_cons, putFrom, DB.set, hshift]
    · have hne : f.setPart index ≠ .success := fun h => hok (decide_eq_true h)
      rw [if_pos hok]
      exact ⟨0, _, .fails (Nat.zero_lt_succ _) hne, fun i hi => absurd hi (by omega), rfl⟩

end

section
variable {f : Faults} {key : Bytes} {mem : Mem} {floatText : Bytes → Bytes → Bytes} {db : DB}

theorem storeSmall_kept {malloc : Bool}
    (h : db (sumKey key) = none ∨ malloc = false ∨ f.getSum ≠ .success) (data : Bytes) :
    storeSmall f key mem malloc db data = some (ocallPersistSet f.setWhole db key data) := by
  have hfails : ∀ got : CrustStatus × Bytes, got.1 ≠ .success →
      (if isOk f.getSum then innerOcallPersistGet malloc db (sumKey key) else (f.getSum, [])) = got →
      storeSmall f key mem malloc db data = some (ocallPersistSet f.setWhole db key data) := by
    rintro ⟨status, text⟩ hne hgot
    unfold storeSmall
    rw [hgot]
    cases status with
    | success => exact absurd rfl hne
    | _ => rfl
  by_cases hok : f.getSum = .success
  · have hok' : isOk f.getSum = true := decide_eq_true hok
    rw [if_pos hok'] at hfails
    cases hdb : db (sumKey key) with
    | none => exact hfails _ (by decide) (innerGet_missing hdb)
    | some text =>
      rcases h with hnone | rfl | hget
      · rw [hdb] at hnone
        cases hnone
      · exact hfails _ (by decide) (innerGet_starved hdb)
      · exact absurd hok hget
  · have hok' : ¬ isOk f.getSum = true := fun h => hok (of_decide_eq_true h)
    rw [if_neg hok'] at hfails
    exact hfails _ hok rfl

theorem storeSmall_cleared {num size : Nat} (hget : f.getSum = .success) (hnum : num ≤ heapMaxSize)
    (hsize : size ≤ heapMaxSize) (hsum : db (sumKey key) = some (sumText floatText num size))
    (data : Bytes) :
    storeSmall f key mem true db data =
      some (ocallPersistSet f.setWhole (ocallPersistDel f.delSum
        (delWhere (partKey key) (fun i => isOk (f.delPart i)) num db) (sumKey key)) key data) := by
  have hok : isOk f.getSum = true := decide_eq_true hget
  unfold storeSmall
  rw [if_pos hok, innerGet_found hsum (length_sumText_le floatText hnum hsize)]
  dsimp only
  rw [sumText_load mem floatText (isLong_of_le hnum) (isLong_of_le hsize)]
  dsimp only
  rw [sumJson_num _ hnum]
  rfl

end

/-! ### Without faults -/

def noFaults : Faults := ⟨fun _ => .success, .success, .success, .success, fun _ => .success, .success⟩

section
variable (key : Bytes) (mem : Mem) (floatText : Bytes → Bytes → Bytes) (db : DB)

theorem storeSmall_noFaults (malloc : Bool) {data : Bytes}
    (hlen : data.length ≤ ocallStoreThreshold) :
    storeSmall noFaults key mem malloc db data = storeData mem floatText malloc db key data := by
  have hget : isOk noFaults.getSum = true := rfl
  unfold storeSmall storeData
  rw [if_pos hget, if_neg (by omega)]
  rfl

theorem persistSetUnsafeOn_noFaults {u : Unsealing} (env : SetEnv u) (value : Bytes) :
    persistSetUnsafeOn noFaults key mem floatText env.mallocSum db value =
      persistSetUnsafe mem floatText env db key value := by
  unfold persistSetUnsafeOn persistSetUnsafe
  by_cases hlarge : value.length > ocallStoreThreshold
  · rw [if_pos hlarge, storePartsUnchecked_eq, putWhere_of_ok (fun _ _ => rfl), Nat.zero_add,
      storeData_large_eq _ hlarge]
    rfl
  · rw [if_neg hlarge, storeSmall_noFaults key mem floatText db _ (not_lt.mp hlarge)]

theorem persistSetOn_noFaults {u : Unsealing} (env : SetEnv u) (value : Bytes) :
    persistSetOn noFaults key mem floatText env db value =
      persistSet mem floatText env db key value := by
  unfold persistSetOn persistSet
  obtain ⟨status, sealed⟩ := sealDataMrenclave env value
  cases status with
  | success =>
    dsimp only
    by_cases hlarge : sealed.length > ocallStoreThreshold
    · obtain ⟨j, status, hstored, -, heq⟩ :=
        storePartsChecked_spec noFaults key db 0 sealed
      cases hstored with
      | fails hj hf => exact absurd rfl hf
      | all hj =>
        subst hj
        rw [if_pos hlarge, heq, List.take_length, Nat.zero_add, storeData_large_eq _ hlarge]
        rfl
    · rw [if_neg hlarge, storeSmall_noFaults key mem floatText db _ (not_lt.mp hlarge)]
  | _ => rfl

end

/-! ### Reading -/

section
variable (env : GetEnv) (db : DB) (key : Bytes)

def partRead (i : Nat) : CrustStatus × Bytes :=
  innerOcallPersistGet (env.mallocPart i) db (partKey key i)

def readSum (mem : Mem) : Option (Nat × Nat) :=
  match innerOcallPersistGet env.mallocSum db (sumKey key) with
  | (.success, text) =>
    match load mem text with
    | .error _ => none
    | .ok sum =>
      let size := sizeT (sum.get persistSize).toInt
      if encMalloc env.mallocData size then some (toUint32 (sum.get persistSum).toInt, size) else none
  | _ => none

def copies (num : Nat) : List Nat := (List.range num).map fun i => (partRead env db key i).2.length

def copiesChecked (num : Nat) : List Nat :=
  ((List.range num).takeWhile fun i => isOk (partRead env db key i).1).map
    fun i => (partRead env db key i).2.length

end

section
variable {mem : Mem} {env : GetEnv} {db : DB} {key : Bytes} {num size : Nat}

theorem getUnsafe_of_readSum (h : readSum env db key mem = some (num, size)) :
    persistGetUnsafe mem env db key =
      (intoBuffer size (readParts env db key num).2).map
        fun data => ((readParts env db key num).1, some data) := by
  unfold readSum at h
  unfold persistGetUnsafe
  generalize innerOcallPersistGet env.mallocSum db (sumKey key) = got at h ⊢
  obtain ⟨status, text⟩ := got
  cases status with
  | success =>
    dsimp only at h ⊢
    cases hload : load mem text with
    | error e =>
      rw [hload] at h
      cases h
    | ok sum =>
      rw [hload] at h
      dsimp only at h ⊢
      by_cases hm : encMalloc env.mallocData (sizeT (sum.get persistSize).toInt) = true
      · rw [if_pos hm] at h
        rw [if_neg (not_not.mpr hm)]
        cases h
        rfl
      · rw [if_neg hm] at h
        cases h
  | _ => cases h

theorem sealedData_of_readSum (h : readSum env db key mem = some (num, size)) :
    sealedData mem env db key =
      (intoBuffer size (readPartsChecked env db key num).2).map fun data =>
        if (readPartsChecked env db key num).1 = .success then (.success, data)
        else ((readPartsChecked env db key num).1, []) := by
  unfold readSum at h
  unfold sealedData
  generalize innerOcallPersistGet env.mallocSum db (sumKey key) = got at h ⊢
  obtain ⟨status, text⟩ := got
  cases status with
  | success =>
    dsimp only at h ⊢
    cases hload : load mem text with
    | error e =>
      rw [hload] at h
      cases h
    | ok sum =>
      rw [hload] at h
      dsimp only at h ⊢
      by_cases hm : encMalloc env.mallocData (sizeT (sum.get persistSize).toInt) = true
      · rw [if_pos hm] at h
        rw [if_neg (not_not.mpr hm)]
        cases h
        rfl
      · rw [if_neg hm] at h
        cases h
  | _ => cases h

theorem readSum_of_text {floatText : Bytes → Bytes → Bytes}
    (hsum : db (sumKey key) = some (sumText floatText num size)) (hnum : num ≤ heapMaxSize)
    (hsize : size ≤ heapMaxSize) (henv : env.Served) :
    readSum env db key mem = some (num, size) := by
  unfold readSum
  rw [henv.sum, innerGet_found hsum (length_sumText_le floatText hnum hsize)]
  dsimp only
  rw [sumText_load mem floatText (isLong_of_le hnum) (isLong_of_le hsize)]
  dsimp only
  rw [sumJson_num _ hnum, sumJson_size _ hsize, if_pos (encMalloc_served henv.data hsize)]

theorem readParts_succ (n : Nat) : readParts env db key (n + 1) =
    ((partRead env db key n).1, (readParts env db key n).2 ++ (partRead env db key n).2) := by
  rw [readParts, List.range_succ, List.foldl_append]
  rfl

theorem readPartsChecked_succ (n : Nat) : readPartsChecked env db key (n + 1) =
    if (readPartsChecked env db key n).1 ≠ .success then readPartsChecked env db key n
    else if (partRead env db key n).1 ≠ .success then
      ((partRead env db key n).1, (readPartsChecked env db key n).2)
    else (.success, (readPartsChecked env db key n).2 ++ (partRead env db key n).2) := by
  rw [readPartsChecked, List.range_succ, List.foldl_append]
  rfl

theorem length_readParts (n : Nat) :
    (readParts env db key n).2.length = (copies env db key n).sum := by
  unfold copies
  induction n with
  | zero => rfl
  | succ n ih =>
    rw [readParts_succ, List.length_append, ih, List.range_succ, List.map_append, List.sum_append]
    simp

theorem readPartsChecked_success (n : Nat) : (readPartsChecked env db key n).1 = .success ↔
    ∀ i < n, (partRead env db key i).1 = .success := by
  induction n with
  | zero => exact ⟨fun _ i hi => absurd hi (by omega), fun _ => rfl⟩
  | succ n ih =>
    rw [readPartsChecked_succ, Nat.forall_lt_succ_right]
    by_cases hbefore : (readPartsChecked env db key n).1 = .success
    · rw [if_neg (not_not.mpr hbefore)]
      by_cases hn : (partRead env db key n).1 = .success
      · rw [if_neg (not_not.mpr hn)]
        exact ⟨fun _ => ⟨ih.mp hbefore, hn⟩, fun _ => rfl⟩
      · rw [if_pos hn]
        exact ⟨fun h => absurd h hn, fun h => absurd h.2 hn⟩
    · rw [if_pos hbefore]
      exact ⟨fun h => absurd h hbefore, fun h => absurd (ih.mpr h.1) hbefore⟩

theorem length_readPartsChecked (n : Nat) :
    (readPartsChecked env db key n).2.length = (copiesChecked env db key n).sum := by
  unfold copiesChecked
  induction n with
  | zero => rfl
  | succ n ih =>
    rw [readPartsChecked_succ, List.range_succ]
    by_cases hbefore : (readPartsChecked env db key n).1 = .success
    · have hall : ∀ i ∈ List.range n, isOk (partRead env db key i).1 = true := fun i hi =>
        decide_eq_true ((readPartsChecked_success n).mp hbefore i (List.mem_range.mp hi))
      rw [List.takeWhile_append_of_pos hall, if_neg (not_not.mpr hbefore)]
      rw [List.takeWhile_eq_self_iff.mpr hall] at ih
      by_cases hn : (partRead env db key n).1 = .success
      · have hok : isOk (partRead env db key n).1 = true := decide_eq_true hn
        rw [if_neg (not_not.mpr hn), List.length_append, ih]
        simp [List.takeWhile, hok]
      · have hok : isOk (partRead env db key n).1 = false := decide_eq_false hn
        rw [if_pos hn, ih]
        simp [List.takeWhile, hok]
    · have hstop : ((List.range n).takeWhile fun i => isOk (partRead env db key i).1).length ≠
          (List.range n).length := by
        intro hlen
        have hself := (List.takeWhile_prefix fun i => isOk (partRead env db key i).1).eq_of_length hlen
        refine hbefore ((readPartsChecked_success n).mpr fun i hi => ?_)
        exact of_decide_eq_true (List.takeWhile_eq_self_iff.mp hself i (List.mem_range.mpr hi))
      rw [if_pos hbefore, ih, List.takeWhile_append, if_neg hstop]

theorem innerGet_value {malloc : Bool} {value : Bytes} (hdb : db key = some value)
    (h : (innerOcallPersistGet malloc db key).1 = .success) :
    (innerOcallPersistGet malloc db key).2 = value := by
  unfold innerOcallPersistGet at h ⊢
  rw [hdb] at h ⊢
  dsimp only at h ⊢
  split_ifs at h ⊢
  rfl

theorem readPartsChecked_begins {n : Nat}
    (h : (readPartsChecked env db key (n + 1)).1 = .success) :
    (partRead env db key 0).2 <+: (readPartsChecked env db key (n + 1)).2 := by
  induction n with
  | zero =>
    have hread := (readPartsChecked_success 1).mp h 0 (Nat.zero_lt_one)
    rw [readPartsChecked_succ, if_neg (by simp [readPartsChecked]), if_neg (not_not.mpr hread)]
    exact List.prefix_rfl
  | succ n ih =>
    have hall := (readPartsChecked_success (n + 2)).mp h
    have hbefore := (readPartsChecked_success (n + 1)).mpr fun i hi => hall i (by omega)
    rw [readPartsChecked_succ, if_neg (not_not.mpr hbefore),
      if_neg (not_not.mpr (hall (n + 1) (by omega)))]
    exact (ih hbefore).trans (List.prefix_append _ _)

theorem sealedData_success {sealed : Bytes} (hsum : readSum env db key mem = some (num, size))
    (h : sealedData mem env db key = some (.success, sealed)) (hnum : 0 < num) :
    (∀ i < num, (partRead env db key i).1 = .success) ∧ (partRead env db key 0).2 <+: sealed := by
  rw [sealedData_of_readSum hsum] at h
  obtain ⟨data, hdata, hres⟩ := Option.map_eq_some_iff.mp h
  by_cases hok : (readPartsChecked env db key num).1 = .success
  · rw [if_pos hok] at hres
    obtain rfl : data = sealed := (Prod.mk.inj hres).2
    refine ⟨(readPartsChecked_success num).mp hok, ?_⟩
    obtain ⟨n, rfl⟩ : ∃ n, num = n + 1 := ⟨num - 1, by omega⟩
    refine (readPartsChecked_begins hok).trans ?_
    unfold intoBuffer at hdata
    split_ifs at hdata
    rw [← Option.some.inj hdata]
    exact List.prefix_append _ _
  · rw [if_neg hok] at hres
    exact absurd (Prod.mk.inj hres).1 hok

end

/-! ### Buffers -/

def Inside (size : Nat) : Nat → List Nat → Prop
  | _, [] => True
  | offset, n :: ns => offset + n ≤ size ∧ Inside size (offset + n) ns

theorem inside_iff {size offset : Nat} (h : offset ≤ size) (ns : List Nat) :
    Inside size offset ns ↔ offset + ns.sum ≤ size := by
  induction ns generalizing offset with
  | nil => exact ⟨fun _ => h, fun _ => trivial⟩
  | cons n ns ih =>
    rw [Inside, List.sum_cons]
    constructor
    · rintro ⟨hn, hrest⟩
      have := (ih hn).mp hrest
      omega
    · intro hsum
      exact ⟨by omega, (ih (by omega)).mpr (by omega)⟩

def StaysInside (mem : Mem) (env : GetEnv) (db : DB) (key : Bytes)
    (copied : GetEnv → DB → Bytes → Nat → List Nat) : Prop :=
  ∀ num size, readSum env db key mem = some (num, size) → Inside size 0 (copied env db key num)

section
variable {mem : Mem} {env : GetEnv} {db : DB} {key : Bytes}

theorem intoBuffer_isSome (size : Nat) (parts : Bytes) :
    (intoBuffer size parts).isSome = true ↔ parts.length ≤ size := by
  unfold intoBuffer
  split_ifs with h
  · exact ⟨fun _ => h, fun _ => rfl⟩
  · exact ⟨fun hs => (by cases hs), fun hs => absurd hs h⟩

/-- A copy behind the end is what the fault of the model stands for. -/
theorem getUnsafe_isSome {num size : Nat} (h : readSum env db key mem = some (num, size)) :
    (persistGetUnsafe mem env db key).isSome = true ↔ Inside size 0 (copies env db key num) := by
  rw [getUnsafe_of_readSum h, Option.isSome_map, intoBuffer_isSome, length_readParts,
    inside_iff (Nat.zero_le _), Nat.zero_add]

theorem sealedData_isSome {num size : Nat} (h : readSum env db key mem = some (num, size)) :
    (sealedData mem env db key).isSome = true ↔ Inside size 0 (copiesChecked env db key num) := by
  rw [sealedData_of_readSum h, Option.isSome_map, intoBuffer_isSome, length_readPartsChecked,
    inside_iff (Nat.zero_le _), Nat.zero_add]

/-- The buffer is enough exactly when the parts that are read fit the size that the summary
states. -/
theorem stays_inside_iff :
    (StaysInside mem env db key copies ↔
      ∀ num size, readSum env db key mem = some (num, size) →
        (copies env db key num).sum ≤ size) ∧
    (StaysInside mem env db key copiesChecked ↔
      ∀ num size, readSum env db key mem = some (num, size) →
        (copiesChecked env db key num).sum ≤ size) := by
  have hgen : ∀ copied : GetEnv → DB → Bytes → Nat → List Nat,
      StaysInside mem env db key copied ↔
        ∀ num size, readSum env db key mem = some (num, size) →
          (copied env db key num).sum ≤ size := by
    intro copied
    unfold StaysInside
    simp only [inside_iff (Nat.zero_le _), Nat.zero_add]
  exact ⟨hgen copies, hgen copiesChecked⟩

end

def overlong : DB := fun key =>
  if key = str "srd_info_sum" then some (str "\x7b\"persist_size\":1,\"persist_sum\":1\x7d")
  else if key = str "srd_info_0" then some [7, 7]
  else none

theorem copy_leaves_buffer :
    persistGetUnsafe smallMem servedEnv overlong (str "srd_info") = none ∧
      ¬ StaysInside smallMem servedEnv overlong (str "srd_info") copies ∧
      ¬ StaysInside smallMem servedEnv overlong (str "srd_info") copiesChecked := by
  have hsum : readSum servedEnv overlong (str "srd_info") smallMem = some (1, 1) := by
    decide +kernel
  refine ⟨by decide +kernel, fun h => ?_, fun h => ?_⟩
  · have hin := (inside_iff (Nat.zero_le _) _).mp (h 1 1 hsum)
    revert hin
    decide +kernel
  · have hin := (inside_iff (Nat.zero_le _) _).mp (h 1 1 hsum)
    revert hin
    decide +kernel

/-! ### Reads that report success -/

section
variable {setPart : Nat → CrustStatus} {setSum setWhole : CrustStatus} {k : Key} {value : Buffer}

end

abbrev Size := {n : Nat // n ≤ heapMaxSize}

/-- Whatever was sealed and stored before, a write that fails leaves it to be read. -/
def Keeps (f : Faults) (malloc : Bool) (oldSize newSize : Size) : Prop :=
  ∀ (mem : Mem) (floatText : Bytes → Bytes → Bytes) (u : Unsealing) (env : SetEnv u) (k : Key)
    (db : DB) (data : Bytes) (old new : Buffer),
    env.mallocSum = malloc → data.length = oldSize → StandsFor u .sealing data old.val →
    Holds floatText db k data →
    (∀ sealed, env.sgxSealData new.val = some sealed → sealed.val.length = newSize) →
    ∀ status db', persistSetOn f k.name mem floatText env db new.val = some (status, db') →
      status ≠ .success → ∀ get : GetEnv, get.Served →
        persistGet mem u get db' k.name = some (.success, some old.val)

def Untouched (f : Faults) (malloc : Bool) (oldSize newSize : Size) : Prop :=
  oldSize ≤ ocallStoreThreshold ∨
    (ocallStoreThreshold < newSize ∧ (f.setPart 0 ≠ .success ∨
      (∀ i < partNum newSize, f.setPart i = .success) ∧ f.setSum = .success)) ∨
    (newSize ≤ ocallStoreThreshold ∧ (f.setWhole = .success ∨ malloc = false ∨ f.getSum ≠ .success ∨
      f.delSum ≠ .success ∧ ∀ i < partNum oldSize, f.delPart i ≠ .success))

section
variable {f : Faults} {mem : Mem} {floatText : Bytes → Bytes → Bytes} {u : Unsealing}
  {env : SetEnv u} {key : Bytes} {db db' : DB} {value : Bytes} {status : CrustStatus}

theorem persistSetOn_failed (h : persistSetOn f key mem floatText env db value = some (status, db'))
    (hfail : status ≠ .success) :
    db' = db ∨ ∃ sealed, env.sgxSealData value = some sealed ∧
      ((ocallStoreThreshold < sealed.val.length ∧ ∃ j ≤ partNum sealed.val.length,
          (∀ i < j, f.setPart i = .success) ∧
          (j = partNum sealed.val.length → f.setSum ≠ .success) ∧
          (j < partNum sealed.val.length → f.setPart j ≠ .success) ∧
          db' = putFrom (partKey key) 0 ((cut ocallStoreThreshold sealed.val).take j) db) ∨
        (sealed.val.length ≤ ocallStoreThreshold ∧
          storeSmall f key mem env.mallocSum db sealed.val = some (status, db'))) := by
  unfold persistSetOn sealDataMrenclave at h
  cases hout : env.sgxSealData value with
  | none =>
    rw [hout] at h
    cases h
    exact .inl rfl
  | some sealed =>
    rw [hout] at h
    dsimp only at h
    by_cases hm : encMalloc env.mallocSealed sealed.val.length = true
    · rw [if_neg (not_not.mpr hm)] at h
      dsimp only at h
      refine .inr ⟨sealed, rfl, ?_⟩
      by_cases hlarge : sealed.val.length > ocallStoreThreshold
      · obtain ⟨j, st, hstored, hbefore, heq⟩ :=
          storePartsChecked_spec f key db 0 sealed.val
        simp only [Nat.zero_add] at hbefore heq
        rw [if_pos hlarge, heq] at h
        refine .inl ⟨hlarge, j, ?_⟩
        rw [← length_cut_partNum]
        cases hstored with
        | all hj =>
          dsimp only at h
          obtain ⟨rfl, hdb'⟩ := Prod.mk.inj (Option.some.inj h)
          have hok : ¬ isOk f.setSum = true := fun h => hfail (of_decide_eq_true h)
          rw [if_neg hok] at hdb'
          exact ⟨by omega, hbefore, fun _ => hfail, fun hlt => absurd hlt (by omega), hdb'.symm⟩
        | fails hj hf =>
          rw [Nat.zero_add] at hf h
          refine ⟨by omega, hbefore, fun heq => absurd heq (by omega), fun _ => hf, ?_⟩
          generalize f.setPart j = st at hf h
          cases st with
          | success => exact absurd rfl hf
          | _ =>
            cases h
            rfl
      · rw [if_neg hlarge] at h
        exact .inr ⟨not_lt.mp hlarge, h⟩
    · rw [if_pos hm] at h
      cases h
      exact .inl rfl

theorem ocallPersistSet_failed (hfail : status ≠ .success) (db : DB) (key value : Bytes) :
    ocallPersistSet status db key value = (status, db) := by
  have hok : ¬ isOk status = true := fun h => hfail (of_decide_eq_true h)
  rw [ocallPersistSet, if_neg hok]

theorem ocallPersistDel_failed (hfail : status ≠ .success) (db : DB) (key : Bytes) :
    ocallPersistDel status db key = db := by
  have hok : ¬ isOk status = true := fun h => hfail (of_decide_eq_true h)
  rw [ocallPersistDel, if_neg hok]

theorem storeSmall_failed {k : Key} {data : Bytes} {malloc : Bool}
    (hdata : data.length ≤ heapMaxSize) (hholds : Holds floatText db k data)
    (hu : data.length ≤ ocallStoreThreshold ∨ f.setWhole = .success ∨ malloc = false ∨
      f.getSum ≠ .success ∨
      f.delSum ≠ .success ∧ ∀ i < partNum data.length, f.delPart i ≠ .success)
    (h : storeSmall f k.name mem malloc db value = some (status, db')) (hfail : status ≠ .success) :
    db' = db := by
  have hset : ∀ db₁ : DB, some (ocallPersistSet f.setWhole db₁ k.name value) = some (status, db') →
      f.setWhole ≠ .success ∧ db' = db₁ := by
    intro db₁ heq
    obtain ⟨hst, -⟩ := Prod.mk.inj (Option.some.inj heq)
    rw [← hst] at hfail
    rw [ocallPersistSet_failed hfail] at heq
    cases heq
    exact ⟨hfail, rfl⟩
  by_cases hkept : db (sumKey k.name) = none ∨ malloc = false ∨ f.getSum ≠ .success
  · rw [storeSmall_kept hkept] at h
    exact (hset db h).2
  · push Not at hkept
    obtain ⟨hsome, hmalloc, hget⟩ := hkept
    obtain rfl : malloc = true := by simpa using hmalloc
    have hlarge : ocallStoreThreshold < data.length := by
      by_contra hsmall
      exact hsome (hholds.small (not_lt.mp hsmall)).1
    rw [storeSmall_cleared hget (length_cut_le_heap hdata) hdata (hholds.large hlarge).1] at h
    obtain ⟨hwhole, hdb'⟩ := hset _ h
    rcases hu with hu | hu | hu | hu | ⟨hsum, hparts⟩
    · exact absurd hu (by omega)
    · exact absurd hu hwhole
    · cases hu
    · exact absurd hget hu
    · rw [hdb', ocallPersistDel_failed hsum]
      refine delWhere_none fun i hi => ?_
      rw [length_cut_partNum] at hi
      exact decide_eq_false (hparts i hi)

theorem keeps_of_untouched {malloc : Bool} {oldSize newSize : Size}
    (hu : Untouched f malloc oldSize newSize) : Keeps f malloc oldSize newSize := by
  intro mem floatText u env k db data old new hmalloc hold hstands hholds hnew status db' hwrite
    hfail get hget
  have hdata : data.length ≤ heapMaxSize := by
    rw [hold]
    exact oldSize.property
  have hread : ∀ db₁ : DB, Holds floatText db₁ k data →
      persistGet mem u get db₁ k.name = some (.success, some old.val) :=
    fun db₁ h => h.get hdata hstands.1 hstands.2 old.property hget
  rcases persistSetOn_failed hwrite hfail with rfl | ⟨sealed, hsealed, hbranch⟩
  · exact hread _ hholds
  rw [Untouched, ← hold, ← hnew sealed hsealed] at hu
  rcases hbranch with ⟨hlarge, j, hj, hbefore, hsum, hpart, rfl⟩ | ⟨hsmall, hbranch⟩
  · refine hread _ ?_
    by_cases hsmall : data.length ≤ ocallStoreThreshold
    · -- The parts are not what is read.
      obtain ⟨hnone, hwhole⟩ := hholds.small hsmall
      refine ⟨fun _ => ⟨?_, ?_⟩, fun hl => absurd hl (by omega)⟩
      · exact (putFrom_other (slotKey_ne_part k (s := .sum) (by simp)) 0 _).trans hnone
      · exact (putFrom_other (slotKey_ne_part k (s := .whole) (by simp)) 0 _).trans hwhole
    · rcases hu with hu | ⟨-, hu⟩ | ⟨hu, -⟩
      · exact absurd hu hsmall
      · rcases hu with hfirst | ⟨hall, hok⟩
        · obtain rfl : j = 0 := by
            by_contra hpos
            exact hfirst (hbefore 0 (by omega))
          exact hholds
        · rcases Nat.lt_or_eq_of_le hj with hlt | heq
          · exact absurd (hall j hlt) (hpart hlt)
          · exact absurd hok (hsum heq)
      · exact absurd hu (by omega)
  · have hkept : db' = db := by
      refine storeSmall_failed hdata hholds ?_ hbranch hfail
      rcases hu with hu | ⟨hu, -⟩ | ⟨-, hu⟩
      · exact .inl hu
      · exact absurd hu (by omega)
      · rw [hmalloc]
        exact .inr hu
    rw [hkept]
    exact hread _ hholds

end

/-! ### The condition is needed -/

def openSealing : Unsealing := ⟨List.length, some⟩

def openSeal (value : Bytes) : Option Buffer :=
  if h : value.length ≤ heapMaxSize then some ⟨value, h⟩ else none

theorem openSeal_inverse (value : Bytes) (out : Buffer) (h : openSeal value = some out) :
    openSealing.unsealData out.val = some value ∧
      openSealing.encryptTxtLen out.val = value.length := by
  unfold openSeal at h
  split_ifs at h
  cases h
  exact ⟨rfl, rfl⟩

def openEnv (malloc : Bool) : SetEnv openSealing := ⟨true, openSeal, openSeal_inverse, malloc⟩

def filled (c : UInt8) (n : Size) : Buffer :=
  ⟨List.replicate n.val c, by rw [List.length_replicate]; exact n.property⟩

theorem openSeal_buffer (b : Buffer) : openSeal b.val = some b := by
  rw [openSeal, dif_pos b.property]

def largeDB (data : Bytes) : DB :=
  DB.set (putFrom (partKey Key.metadata.name) 0 (cut ocallStoreThreshold data) fun _ => none)
    (sumKey Key.metadata.name)
    (sumText (fun v _ => v) (cut ocallStoreThreshold data).length data.length)

section
variable {data : Bytes}

theorem largeDB_holds (hlarge : ocallStoreThreshold < data.length) :
    Holds (fun v _ => v) (largeDB data) .metadata data := by
  obtain ⟨db', hstore, hholds, -⟩ :=
    storeData_large smallMem (fun v _ => v) (fun _ => none) .metadata true hlarge
  have hdb' := (storeData_large_eq true hlarge Key.metadata.name).symm.trans hstore
  cases hdb'
  exact hholds

theorem largeDB_whole : largeDB data Key.metadata.name = none := by
  have hne : Key.metadata.name ≠ sumKey Key.metadata.name :=
    slotKey_ne (k := .metadata) (s := .whole) (t := .sum) (by simp)
  rw [largeDB, DB.set, Function.update_of_ne hne]
  exact putFrom_other (slotKey_ne_part .metadata (s := .whole) (by simp)) 0 _

end

theorem sealDataMrenclave_open (malloc : Bool) (b : Buffer) :
    sealDataMrenclave (openEnv malloc) b.val = (.success, b.val) := by
  have hseal : (openEnv malloc).sgxSealData b.val = some b := openSeal_buffer b
  have hm : encMalloc (openEnv malloc).mallocSealed b.val.length = true :=
    encMalloc_served rfl b.property
  rw [sealDataMrenclave, hseal]
  dsimp only
  rw [if_neg (not_not.mpr hm)]

theorem sealedData_of_get {mem : Mem} {env : GetEnv} {db : DB} {key value : Bytes}
    (h : persistGet mem openSealing env db key = some (.success, some value)) :
    sealedData mem env db key = some (.success, value) := by
  unfold persistGet at h
  cases hsealed : sealedData mem env db key with
  | none =>
    rw [hsealed] at h
    cases h
  | some got =>
    obtain ⟨status, sealed⟩ := got
    rw [hsealed] at h
    cases status with
    | success =>
      dsimp only at h
      by_cases hm : encMalloc env.mallocUnsealed (openSealing.encryptTxtLen sealed) = true
      · rw [if_neg (not_not.mpr hm)] at h
        cases h
        rfl
      · rw [if_pos hm] at h
        cases h
    | _ => cases h

section
variable {f : Faults} {malloc : Bool} {oldSize newSize : Size}

theorem Keeps.zeros (h : Keeps f malloc oldSize newSize) (hlarge : ocallStoreThreshold < oldSize.val)
    {status : CrustStatus} {db' : DB}
    (hwrite : persistSetOn f Key.metadata.name smallMem (fun v _ => v) (openEnv malloc)
      (largeDB (filled 0 oldSize).val) (filled 1 newSize).val = some (status, db'))
    (hfail : status ≠ .success) :
    sealedData smallMem servedEnv db' Key.metadata.name = some (.success, (filled 0 oldSize).val) := by
  have hlen : (filled 0 oldSize).val.length = oldSize := List.length_replicate
  refine sealedData_of_get (h smallMem (fun v _ => v) openSealing (openEnv malloc) .metadata _
    (filled 0 oldSize).val (filled 0 oldSize) (filled 1 newSize) rfl hlen ⟨rfl, rfl⟩
    (largeDB_holds (by rw [hlen]; exact hlarge)) ?_ status db' hwrite hfail servedEnv
    ⟨rfl, rfl, rfl, fun _ => rfl, rfl⟩)
  intro sealed hsealed
  have hopen := openSeal_buffer (filled 1 newSize)
  cases hopen.symm.trans hsealed
  exact List.length_replicate

theorem servedEnv_served : servedEnv.Served := ⟨rfl, rfl, rfl, fun _ => rfl, rfl⟩

/-- With the summary of the zeros still there, every part has to be read, and the first one has to
begin with a zero. -/
theorem Keeps.parts (h : Keeps f malloc oldSize newSize) (hlarge : ocallStoreThreshold < oldSize.val)
    {status : CrustStatus} {db' : DB}
    (hwrite : persistSetOn f Key.metadata.name smallMem (fun v _ => v) (openEnv malloc)
      (largeDB (filled 0 oldSize).val) (filled 1 newSize).val = some (status, db'))
    (hfail : status ≠ .success)
    (hsum : db' (sumKey Key.metadata.name) =
      largeDB (filled 0 oldSize).val (sumKey Key.metadata.name)) :
    ∀ i < partNum oldSize, ∃ p, db' (partKey Key.metadata.name i) = some p ∧
      (i = 0 → ∀ c s, p = c :: s → c = 0) := by
  have hlen : (filled 0 oldSize).val.length = oldSize := List.length_replicate
  have hlarge' : ocallStoreThreshold < (filled 0 oldSize).val.length := by
    rw [hlen]
    exact hlarge
  have hread := h.zeros hlarge hwrite hfail
  have hreadSum : readSum servedEnv db' Key.metadata.name smallMem =
      some (partNum oldSize, oldSize.val) := by
    have htext := hsum.trans ((largeDB_holds hlarge').large hlarge').1
    rw [length_cut_partNum, hlen] at htext
    refine readSum_of_text htext ?_ oldSize.property servedEnv_served
    rw [← hlen, ← length_cut_partNum]
    exact length_cut_le_heap (by rw [hlen]; exact oldSize.property)
  have hpos : 0 < partNum oldSize := Nat.div_pos (by omega) threshold_pos
  obtain ⟨hall, hprefix⟩ := sealedData_success hreadSum hread hpos
  intro i hi
  have hi' := hall i hi
  unfold partRead at hi' hprefix
  cases hdb : db' (partKey Key.metadata.name i) with
  | none =>
    rw [innerGet_missing hdb] at hi'
    cases hi'
  | some p =>
    refine ⟨p, rfl, ?_⟩
    rintro rfl c s rfl
    rw [innerGet_value hdb hi'] at hprefix
    exact List.eq_of_mem_replicate (List.IsPrefix.subset hprefix List.mem_cons_self)

theorem filled_large {c : UInt8} (h : ocallStoreThreshold < newSize.val) :
    ocallStoreThreshold < (filled c newSize).val.length := by
  rw [filled, List.length_replicate]
  exact h

theorem not_keeps_large (hold : ocallStoreThreshold < oldSize.val)
    (hnew : ocallStoreThreshold < newSize.val) (hfirst : f.setPart 0 = .success)
    (hrest : ¬ ((∀ i < partNum newSize, f.setPart i = .success) ∧ f.setSum = .success)) :
    ¬ Keeps f malloc oldSize newSize := by
  intro hkeeps
  have hlen : (filled 1 newSize).val.length = newSize := List.length_replicate
  obtain ⟨j, st, hstored, hbefore, heq⟩ := storePartsChecked_spec f
    Key.metadata.name (largeDB (filled 0 oldSize).val) 0 (filled 1 newSize).val
  simp only [Nat.zero_add] at hbefore heq
  -- At least one part is stored, and the write fails.
  have hwrite : 0 < j ∧ ∃ status, status ≠ .success ∧
      persistSetOn f Key.metadata.name smallMem (fun v _ => v) (openEnv malloc)
        (largeDB (filled 0 oldSize).val) (filled 1 newSize).val =
          some (status, putFrom (partKey Key.metadata.name) 0
            ((cut ocallStoreThreshold (filled 1 newSize).val).take j)
            (largeDB (filled 0 oldSize).val)) := by
    have hnum : (cut ocallStoreThreshold (filled 1 newSize).val).length = partNum newSize := by
      rw [length_cut_partNum, hlen]
    have hpos : 0 < partNum newSize := Nat.div_pos (by omega) threshold_pos
    unfold persistSetOn
    rw [sealDataMrenclave_open]
    dsimp only
    rw [if_pos (filled_large hnew), heq]
    cases hstored with
    | all hj =>
      have hsum : f.setSum ≠ .success :=
        fun h => hrest ⟨fun i hi => hbefore i (by omega), h⟩
      refine ⟨by omega, f.setSum, hsum, ?_⟩
      dsimp only
      rw [ocallPersistSet_failed hsum]
    | fails hj hf =>
      rw [Nat.zero_add] at hf ⊢
      refine ⟨Nat.pos_of_ne_zero fun h => hf (h ▸ hfirst), f.setPart j, hf, ?_⟩
      generalize f.setPart j = st at hf
      cases st with
      | success => exact absurd rfl hf
      | _ => rfl
  obtain ⟨hj, status, hfail, hwrite⟩ := hwrite
  have hpos : 0 < partNum oldSize := Nat.div_pos (by omega) threshold_pos
  obtain ⟨p, hp, hzero⟩ := hkeeps.parts hold hwrite hfail
    (putFrom_other (slotKey_ne_part .metadata (s := .sum) (by simp)) 0 _) 0 hpos
  have hne : (filled 1 newSize).val ≠ [] := by
    refine List.length_pos_iff.mp ?_
    omega
  have hone : ((cut ocallStoreThreshold (filled 1 newSize).val).take j)[0]? =
      some ((filled 1 newSize).val.take ocallStoreThreshold) := by
    rw [List.getElem?_take_of_lt hj, cut_of_ne_nil threshold_pos hne]
    rfl
  have hput := putFrom_piece (m := largeDB (filled 0 oldSize).val) (i := 0)
    (partKey_injective .metadata) hone
  rw [Nat.zero_add] at hput
  obtain rfl := Option.some.inj (hp.symm.trans hput)
  have hnil : (filled 1 newSize).val.take ocallStoreThreshold ≠ [] := by
    have hthreshold := threshold_pos
    refine List.length_pos_iff.mp ?_
    rw [List.length_take]
    omega
  obtain ⟨c, s, hcs⟩ := List.exists_cons_of_ne_nil hnil
  have hc : c = 1 := by
    have hmem : c ∈ (filled 1 newSize).val := by
      refine List.mem_of_mem_take (i := ocallStoreThreshold) ?_
      rw [hcs]
      exact List.mem_cons_self
    exact List.eq_of_mem_replicate hmem
  rw [hzero rfl c s hcs] at hc
  exact absurd hc (by decide)

theorem not_keeps_small (hold : ocallStoreThreshold < oldSize.val)
    (hnew : newSize.val ≤ ocallStoreThreshold) (hwhole : f.setWhole ≠ .success)
    (hget : f.getSum = .success)
    (hdel : f.delSum = .success ∨ ∃ i < partNum oldSize, f.delPart i = .success) :
    ¬ Keeps f true oldSize newSize := by
  intro hkeeps
  have hlen : (filled 0 oldSize).val.length = oldSize := List.length_replicate
  have hnum : (cut ocallStoreThreshold (filled 0 oldSize).val).length = partNum oldSize := by
    rw [length_cut_partNum, hlen]
  have hlarge := filled_large (c := 0) hold
  have hdata : (filled 0 oldSize).val.length ≤ heapMaxSize := (filled 0 oldSize).property
  have hwrite : persistSetOn f Key.metadata.name smallMem (fun v _ => v) (openEnv true)
      (largeDB (filled 0 oldSize).val) (filled 1 newSize).val =
        some (f.setWhole, ocallPersistDel f.delSum
          (delWhere (partKey Key.metadata.name) (fun i => isOk (f.delPart i)) (partNum oldSize)
            (largeDB (filled 0 oldSize).val)) (sumKey Key.metadata.name)) := by
    have hsmall : ¬ (filled 1 newSize).val.length > ocallStoreThreshold := by
      rw [filled, List.length_replicate]
      omega
    unfold persistSetOn
    rw [sealDataMrenclave_open]
    dsimp only
    rw [if_neg hsmall]
    refine (storeSmall_cleared hget (length_cut_le_heap hdata) hdata
      ((largeDB_holds hlarge).large hlarge).1 _).trans ?_
    rw [hnum, ocallPersistSet_failed hwhole]
  have hread := hkeeps.zeros hold hwrite hwhole
  by_cases hsum : f.delSum = .success
  · -- Neither the summary nor the value is there.
    have hok : isOk f.delSum = true := decide_eq_true hsum
    rw [ocallPersistDel, if_pos hok, sealedData] at hread
    have hne : Key.metadata.name ≠ sumKey Key.metadata.name :=
      slotKey_ne (k := .metadata) (s := .whole) (t := .sum) (by simp)
    generalize hdb : delWhere (partKey Key.metadata.name) (fun i => isOk (f.delPart i))
      (partNum oldSize) (largeDB (filled 0 oldSize).val) = db at hread
    have hsumNone : DB.del db (sumKey Key.metadata.name) (sumKey Key.metadata.name) = none :=
      Function.update_self _ _ _
    have hwholeNone : DB.del db (sumKey Key.metadata.name) Key.metadata.name = none := by
      rw [DB.del, Function.update_of_ne hne, ← hdb]
      exact (delWhere_other (slotKey_ne_part .metadata (s := .whole) (by simp)) _).trans largeDB_whole
    rw [innerGet_missing hsumNone, innerGet_missing hwholeNone] at hread
    cases hread
  · obtain ⟨i, hi, hpart⟩ := hdel.resolve_left hsum
    rw [ocallPersistDel_failed hsum] at hwrite
    obtain ⟨p, hp, -⟩ := hkeeps.parts hold hwrite hwhole
      (delWhere_other (slotKey_ne_part .metadata (s := .sum) (by simp)) _) i hi
    have hok : isOk (f.delPart i) = true := decide_eq_true hpart
    rw [delWhere_eq (partKey_injective .metadata), if_pos ⟨hi, hok⟩] at hp
    cases hp

/-- A failed write keeps the old value, whatever the two values are, exactly when it fails before
anything was touched. -/
theorem failed_write_keeps_iff : Keeps f malloc oldSize newSize ↔ Untouched f malloc oldSize newSize := by
  constructor
  · intro hkeeps
    by_contra hcon
    rw [Untouched] at hcon
    push Not at hcon
    obtain ⟨hold, hlarge, hsmall⟩ := hcon
    by_cases hnew : newSize.val ≤ ocallStoreThreshold
    · obtain ⟨hwhole, hmalloc, hget, hdel⟩ := hsmall hnew
      obtain rfl : malloc = true := by simpa using hmalloc
      refine not_keeps_small hold hnew hwhole hget ?_ hkeeps
      by_cases hsum : f.delSum = .success
      · exact .inl hsum
      · exact .inr (hdel hsum)
    · obtain ⟨hfirst, hrest⟩ := hlarge (not_le.mp hnew)
      exact not_keeps_large hold (not_le.mp hnew) hfirst (fun h => hrest h.1 h.2) hkeeps
  · exact keeps_of_untouched

end

def twoParts : Size := ⟨5000000, by decide⟩

def secondPartFails : Faults := { noFaults with setPart := fun i => if i = 1 then .host 0x6003 else .success }

theorem failed_write_destroys : ¬ Keeps secondPartFails true twoParts twoParts := by
  have hlarge : ocallStoreThreshold < twoParts.val := by decide
  refine not_keeps_large hlarge hlarge rfl ?_
  rintro ⟨hall, -⟩
  exact absurd (hall 1 (by decide)) (by decide)

end CrustSworker.PersistFaults

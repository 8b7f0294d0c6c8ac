import CrustSworker.Persistence
import CrustSworker.SrdInfo
import CrustSworker.Storage

/-!
# What a deletion leaves behind

`persist_del` deletes the record of the key itself. A value that was stored in parts has none:
its summary and its parts stay, and they are what is read. Which of these records there are
depends on the sizes of the values that were written, and a `Layout` counts them.
-/

namespace CrustSworker.PersistLayout

open OrderedMap Persistence Pieces

variable {τ : Type}

def persistDel (db : DB) (key : Bytes) : DB := db.del key

def isDeleted (wl : Workload τ) (hash : Bytes) : Bool :=
  (wl.checkedFiles.findIdx? (Storage.hasHash hash)).isSome ||
    (Storage.findLast (Storage.hasHash hash) wl.newFiles).isSome

def deleteFileRecords (wl : Workload τ) (db : DB) (hash : Bytes) : DB :=
  if isDeleted wl hash then persistDel (persistDel db hash) (hash ++ str "_meta") else db

/-! ### The records that writes leave -/

/-- The number of parts in the summary, and the number behind the last part there is. -/
structure Layout where
  sum : Option Nat
  top : Nat
  deriving DecidableEq

def partNum (len : Nat) : Nat := (len + ocallStoreThreshold - 1) / ocallStoreThreshold

namespace Layout

def empty : Layout := ⟨none, 0⟩

/-- A large value leaves the parts of a larger one; a small value deletes as many parts as the
summary counts, if there is memory for its copy. -/
def write (l : Layout) (mallocSum : Bool) (len : Nat) : Layout :=
  if ocallStoreThreshold < len then ⟨some (partNum len), max l.top (partNum len)⟩
  else
    match l.sum with
    | none => l
    | some n => if mallocSum then ⟨none, if l.top ≤ n then 0 else l.top⟩ else l

def Clean (l : Layout) : Prop := l.sum = none ∧ l.top = 0

instance (l : Layout) : Decidable l.Clean := inferInstanceAs (Decidable (_ ∧ _))

end Layout

section
variable {u : Unsealing} (variant : Key → Variant)

def dataOf (a : Put u) : Option Bytes :=
  match variant a.key with
  | .plain => some a.value.val
  | .sealing =>
    match sealDataMrenclave a.env a.value.val with
    | (.success, sealed) => some sealed
    | _ => none

def Layout.after (k : Key) (l : Layout) (a : Put u) : Layout :=
  if a.key = k then
    match dataOf variant a with
    | none => l
    | some data => l.write a.env.mallocSum data.length
  else l

def layoutOf (k : Key) (acts : List (Put u)) : Layout :=
  acts.foldl (Layout.after variant k) .empty

end

structure LayoutOk (floatText : Bytes → Bytes → Bytes) (db : DB) (k : Key) (l : Layout) : Prop where
  sum : ∀ n, l.sum = some n → ∃ data, ocallStoreThreshold < data.length ∧
    data.length ≤ heapMaxSize ∧ (cut ocallStoreThreshold data).length = n ∧ Holds floatText db k data
  noSum : l.sum = none → db (slotKey k .sum) = none
  above : ∀ i, l.top ≤ i → db (slotKey k (.part i)) = none
  last : ∀ i, l.top = i + 1 → (db (slotKey k (.part i))).isSome = true

section
variable {mem : Mem} {floatText : Bytes → Bytes → Bytes} {db : DB} {k : Key} {l : Layout}
  {data : Bytes}

theorem length_cut_partNum (data : Bytes) :
    (cut ocallStoreThreshold data).length = partNum data.length := length_cut threshold_pos data

theorem LayoutOk.congr (h : LayoutOk floatText db k l) {db' : DB}
    (hdb : ∀ s, s ≠ .whole → db' (slotKey k s) = db (slotKey k s)) :
    LayoutOk floatText db' k l where
  sum := by
    intro n hn
    obtain ⟨data, hlarge, hlen, hnum, hholds⟩ := h.sum n hn
    refine ⟨data, hlarge, hlen, hnum, fun hs => absurd hs (by omega), fun hl => ⟨?_, ?_⟩⟩
    · rw [hdb _ (by simp)]
      exact (hholds.large hl).1
    · intro i p hp
      rw [hdb _ (by simp)]
      exact (hholds.large hl).2 i p hp
  noSum := by
    intro hn
    rw [hdb _ (by simp)]
    exact h.noSum hn
  above := by
    intro i hi
    rw [hdb _ (by simp)]
    exact h.above i hi
  last := by
    intro i hi
    rw [hdb _ (by simp)]
    exact h.last i hi

theorem LayoutOk.cleared (h : LayoutOk floatText db k l) {n : Nat} {db' : DB}
    (hdb : ∀ s, s ≠ .whole →
      db' (slotKey k s) = DB.del (delBelow (partKey k.name) n db) (sumKey k.name) (slotKey k s)) :
    LayoutOk floatText db' k ⟨none, if l.top ≤ n then 0 else l.top⟩ := by
  have hpart : ∀ i, db' (slotKey k (.part i)) = if i < n then none else db (slotKey k (.part i)) := by
    intro i
    have hne : slotKey k (.part i) ≠ sumKey k.name := slotKey_ne (t := .sum) (by simp)
    rw [hdb _ (by simp), DB.del, Function.update_of_ne hne]
    exact delBelow_eq (partKey_injective k) n i
  refine ⟨fun n hn => ?_, fun _ => ?_, fun i hi => ?_, fun i hi => ?_⟩
  · cases hn
  · rw [hdb _ (by simp)]
    exact Function.update_self _ _ _
  · rw [hpart]
    by_cases hin : i < n
    · rw [if_pos hin]
    · rw [if_neg hin]
      refine h.above i ?_
      by_cases htop : l.top ≤ n
      · omega
      · rwa [if_neg htop] at hi
  · dsimp only at hi
    by_cases htop : l.top ≤ n
    · rw [if_pos htop] at hi
      omega
    · rw [if_neg htop] at hi
      rw [hpart, if_neg (by omega)]
      exact h.last i hi

theorem write_large (mem : Mem) (h : LayoutOk floatText db k l) (malloc : Bool)
    (hlarge : ocallStoreThreshold < data.length) (hlen : data.length ≤ heapMaxSize) :
    ∃ db', storeData mem floatText malloc db k.name data = some (.success, db') ∧
      LayoutOk floatText db' k (l.write malloc data.length) ∧ Frame k db db' := by
  obtain ⟨db', hstore, hholds, hframe⟩ := storeData_large mem floatText db k malloc hlarge
  have hdb' := (storeData_large_eq malloc hlarge k.name).symm.trans hstore
  have hcut := length_cut_partNum data
  refine ⟨db', hstore, ?_, hframe⟩
  have hparts : ∀ i, db' (slotKey k (.part i)) =
      putFrom (partKey k.name) 0 (cut ocallStoreThreshold data) db (partKey k.name i) := by
    intro i
    have hne : slotKey k (.part i) ≠ sumKey k.name := slotKey_ne (t := .sum) (by simp)
    cases hdb'
    exact Function.update_of_ne hne _ _
  rw [Layout.write, if_pos hlarge]
  refine ⟨?_, fun hn => ?_, fun i hi => ?_, fun i hi => ?_⟩
  · intro n hn
    cases hn
    exact ⟨data, hlarge, hlen, hcut, hholds⟩
  · cases hn
  · dsimp only at hi
    rw [hparts, putFrom_after (partKey_injective k) (by omega)]
    exact h.above i (by omega)
  · dsimp only at hi
    by_cases hin : i < partNum data.length
    · obtain ⟨p, hp⟩ : ∃ p, (cut ocallStoreThreshold data)[i]? = some p :=
        ⟨_, List.getElem?_eq_getElem (by omega)⟩
      rw [(hholds.large hlarge).2 i p hp]
      rfl
    · rw [hparts, putFrom_after (partKey_injective k) (by omega)]
      exact h.last i (by omega)

theorem write_small (mem : Mem) (h : LayoutOk floatText db k l) (malloc : Bool)
    (hsmall : data.length ≤ ocallStoreThreshold) :
    ∃ db', storeData mem floatText malloc db k.name data = some (.success, db') ∧
      LayoutOk floatText db' k (l.write malloc data.length) ∧ Frame k db db' := by
  have hne : ∀ s, s ≠ .whole → slotKey k s ≠ k.name := fun s hs => slotKey_ne (t := .whole) hs
  have hkept : ∀ {db : DB}, LayoutOk floatText db k l → LayoutOk floatText (db.set k.name data) k l :=
    fun h => h.congr fun s hs => Function.update_of_ne (hne s hs) _ _
  have hframe : Frame k db (db.set k.name data) := fun x hx => Function.update_of_ne (hx .whole) _ _
  rw [Layout.write, if_neg (by omega)]
  cases hsum : l.sum with
  | none => exact ⟨_, storeData_small_eq hsmall (.inl (h.noSum hsum)), hkept h, hframe⟩
  | some n =>
    cases malloc with
    | false => exact ⟨_, storeData_small_eq hsmall (.inr rfl), hkept h, hframe⟩
    | true =>
      obtain ⟨old, hlarge, hlen, hnum, hholds⟩ := h.sum n hsum
      have hcut := length_cut_le_heap hlen
      have hsumText := (hholds.large hlarge).1
      rw [hnum] at hcut hsumText
      have hstore : storeData mem floatText true db k.name data = _ :=
        storeData_small_cleared hsmall hcut hlen hsumText
      refine ⟨_, hstore, h.cleared fun s hs => Function.update_of_ne (hne s hs) _ _, fun x hx => ?_⟩
      have hwhole : x ≠ k.name := hx .whole
      have hsumKey : x ≠ sumKey k.name := hx .sum
      rw [DB.set, Function.update_of_ne hwhole, DB.del, Function.update_of_ne hsumKey]
      exact delBelow_other (fun j => hx (.part j)) n

theorem write_layout (mem : Mem) (h : LayoutOk floatText db k l) (malloc : Bool)
    (hlen : data.length ≤ heapMaxSize) :
    ∃ db', storeData mem floatText malloc db k.name data = some (.success, db') ∧
      LayoutOk floatText db' k (l.write malloc data.length) ∧ Frame k db db' := by
  by_cases hsmall : data.length ≤ ocallStoreThreshold
  · exact write_small mem h malloc hsmall
  · exact write_large mem h malloc (not_le.mp hsmall) hlen

end

/-! ### Runs -/

section
variable {mem : Mem} {floatText : Bytes → Bytes → Bytes} {u : Unsealing} {variant : Key → Variant}

theorem write_eq (mem : Mem) (floatText : Bytes → Bytes → Bytes) (variant : Key → Variant) (db : DB)
    (a : Put u) :
    (dataOf variant a = none ∧ ∃ status, write mem floatText u variant db a = some (status, db)) ∨
      ∃ data, dataOf variant a = some data ∧ data.length ≤ heapMaxSize ∧
        write mem floatText u variant db a =
          storeData mem floatText a.env.mallocSum db a.key.name data := by
  unfold write dataOf
  cases variant a.key with
  | plain => exact .inr ⟨a.value.val, rfl, a.value.property, rfl⟩
  | sealing =>
    unfold persistSet sealDataMrenclave
    cases hout : a.env.sgxSealData a.value.val with
    | none => exact .inl ⟨rfl, _, rfl⟩
    | some out =>
      dsimp only
      by_cases hm : encMalloc a.env.mallocSealed out.val.length = true
      · rw [if_neg (not_not.mpr hm)]
        exact .inr ⟨out.val, rfl, out.property, rfl⟩
      · rw [if_pos hm]
        exact .inl ⟨rfl, _, rfl⟩

theorem step_layout (mem : Mem) (variant : Key → Variant) {s : State} {ls : Key → Layout} (h : ∀ k, LayoutOk floatText s.db k (ls k))
    (a : Put u) : ∃ s', step mem floatText u variant s a = some s' ∧
      ∀ k, LayoutOk floatText s'.db k (Layout.after variant k (ls k) a) := by
  rcases write_eq mem floatText variant s.db a with
    ⟨hdata, status, hw⟩ | ⟨data, hdata, hlen, hw⟩
  · refine ⟨_, by rw [step, hw]; rfl, fun k => ?_⟩
    have hafter : Layout.after variant k (ls k) a = ls k := by
      rw [Layout.after, hdata]
      exact ite_self _
    rw [hafter]
    exact h k
  · obtain ⟨db', hstore, hok, hframe⟩ := write_layout mem (h a.key) a.env.mallocSum hlen
    refine ⟨_, by rw [step, hw, hstore]; rfl, fun k => ?_⟩
    by_cases hk : a.key = k
    · subst hk
      rw [Layout.after, if_pos rfl, hdata]
      exact hok
    · rw [Layout.after, if_neg hk]
      refine (h k).congr fun s _ => hframe _ fun s' heq => hk ?_
      exact (slotKey_injective heq).1.symm

theorem run_layout (mem : Mem) (variant : Key → Variant) (acts : List (Put u)) {s : State} {ls : Key → Layout}
    (h : ∀ k, LayoutOk floatText s.db k (ls k)) :
    ∃ t, Runs.run (step mem floatText u variant) s acts = some t ∧
      ∀ k, LayoutOk floatText t.db k (acts.foldl (Layout.after variant k) (ls k)) := by
  induction acts generalizing s ls with
  | nil => exact ⟨s, rfl, h⟩
  | cons a acts ih =>
    obtain ⟨s', hstep, hs'⟩ := step_layout mem variant h a
    obtain ⟨t, hrun, ht⟩ := ih hs'
    refine ⟨t, ?_, ht⟩
    rw [Runs.run, hstep]
    exact hrun

theorem layoutOk_empty (k : Key) : LayoutOk floatText (fun _ => none) k .empty where
  sum := by
    intro n hn
    cases hn
  noSum := fun _ => rfl
  above := fun _ _ => rfl
  last := by
    intro i hi
    cases hi

end

/-! ### Deleting -/

def Fails (res : Option (CrustStatus × Option Bytes)) : Prop :=
  ∃ status, status ≠ .success ∧ res = some (status, none)

structure Gone (mem : Mem) (u : Unsealing) (db : DB) (k : Key) : Prop where
  sealed : ∀ env, Fails (persistGet mem u env db k.name)
  plain : ∀ env, Fails (persistGetUnsafe mem env db k.name)
  records : db (slotKey k .sum) = none ∧ ∀ i, db (slotKey k (.part i)) = none

section
variable {mem : Mem} {floatText : Bytes → Bytes → Bytes} {u : Unsealing} {db : DB} {k : Key}
  {l : Layout}

theorem fails_sealed (hsum : db (sumKey k.name) = none) (hwhole : db k.name = none) (env : GetEnv) :
    Fails (persistGet mem u env db k.name) := by
  refine ⟨persistGetFailed, by decide, ?_⟩
  rw [persistGet, sealedData, innerGet_missing hsum, innerGet_missing hwhole]
  rfl

theorem fails_plain (hsum : db (sumKey k.name) = none) (hwhole : db k.name = none) (env : GetEnv) :
    Fails (persistGetUnsafe mem env db k.name) := by
  refine ⟨persistGetFailed, by decide, ?_⟩
  rw [persistGetUnsafe, innerGet_missing hsum, innerGet_missing hwhole]
  rfl

theorem LayoutOk.del (h : LayoutOk floatText db k l) :
    LayoutOk floatText (persistDel db k.name) k l :=
  h.congr fun _ hs => Function.update_of_ne (slotKey_ne (t := .whole) hs) _ _

theorem gone_iff (h : LayoutOk floatText db k l) :
    Gone mem u (persistDel db k.name) k ↔ l.Clean := by
  have hdel := h.del
  have hwhole : persistDel db k.name k.name = none := Function.update_self _ _ _
  constructor
  · intro hgone
    constructor
    · cases hsum : l.sum with
      | none => rfl
      | some n =>
        obtain ⟨data, hlarge, -, -, hholds⟩ := hdel.sum n hsum
        have hnone := hgone.records.1
        rw [(hholds.large hlarge).1] at hnone
        cases hnone
    · cases htop : l.top with
      | zero => rfl
      | succ i =>
        have hlast := hdel.last i htop
        rw [hgone.records.2 i] at hlast
        cases hlast
  · rintro ⟨hsum, htop⟩
    have hnone := hdel.noSum hsum
    exact ⟨fails_sealed hnone hwhole, fails_plain hnone hwhole, hnone,
      fun i => hdel.above i (by omega)⟩

theorem tree_gone_iff {hash : FileHash} (h : LayoutOk floatText db (.file hash) l)
    {wl : Workload τ} (hwl : isDeleted wl hash.val = true) :
    (∀ env, Fails (persistGetUnsafe mem env (deleteFileRecords wl db hash.val) hash.val)) ↔
      l.sum = none := by
  have hne : ∀ s, slotKey (.file hash) s ≠ hash.val ++ str "_meta" := by
    intro s heq
    have hslot : slotKey (.file hash) s = slotKey (.fileMeta hash) .whole := heq
    cases (slotKey_injective hslot).1
  have hwhole : deleteFileRecords wl db hash.val hash.val = none := by
    rw [deleteFileRecords, if_pos hwl]
    exact (Function.update_of_ne (hne .whole) _ _).trans (Function.update_self _ _ _)
  have hok : LayoutOk floatText (deleteFileRecords wl db hash.val) (.file hash) l := by
    rw [deleteFileRecords, if_pos hwl]
    exact h.del.congr fun s _ => Function.update_of_ne (hne s) _ _
  constructor
  · intro hfails
    cases hsum : l.sum with
    | none => rfl
    | some n =>
      obtain ⟨data, -, hlen, -, hholds⟩ := hok.sum n hsum
      have hserved : servedEnv.Served := ⟨rfl, rfl, rfl, fun _ => rfl, rfl⟩
      have hread : persistGetUnsafe mem servedEnv _ hash.val = _ := hholds.getUnsafe hlen hserved
      obtain ⟨status, -, hres⟩ := hfails servedEnv
      cases hread.symm.trans hres
  · intro hsum
    exact fails_plain (k := .file hash) (hok.noSum hsum) hwhole

/-- After any writes, what `persist_del` deletes is gone exactly when the writes have left neither a
summary nor a part, and the tree of a deleted file exactly when they have left no summary. -/
theorem deletion_deletes_iff (variant : Key → Variant) (acts : List (Put u)) (k : Key) :
    ∃ t, Runs.run (step mem floatText u variant) empty acts = some t ∧
      (Gone mem u (persistDel t.db k.name) k ↔ (layoutOf variant k acts).Clean) ∧
      ∀ (hash : FileHash) (wl : Workload τ), isDeleted wl hash.val = true →
        ((∀ env, Fails (persistGetUnsafe mem env (deleteFileRecords wl t.db hash.val) hash.val)) ↔
          (layoutOf variant (.file hash) acts).sum = none) := by
  obtain ⟨t, hrun, hok⟩ := run_layout mem variant acts (s := empty) layoutOk_empty
  exact ⟨t, hrun, gone_iff (hok k), fun hash wl hwl => tree_gone_iff (hok (.file hash)) hwl⟩

end

/-! ### A large tree -/

theorem layout_of_large {v : Key → Variant} {k : Key} (hv : v k = .plain)
    {large : Buffer} (hlarge : ocallStoreThreshold < large.val.length) (env : SetEnv headed) :
    layoutOf v k [⟨k, large, env⟩] =
      ⟨some (partNum large.val.length), partNum large.val.length⟩ := by
  have hdata : dataOf v (⟨k, large, env⟩ : Put headed) = some large.val := by
    rw [dataOf, hv]
  rw [layoutOf, List.foldl_cons, List.foldl_nil, Layout.after, if_pos rfl, hdata]
  dsimp only
  rw [Layout.write, if_pos hlarge]
  simp [Layout.empty]

def zerosHash : FileHash :=
  ⟨List.replicate 64 48, List.length_replicate, fun c hc => by rw [List.eq_of_mem_replicate hc]; decide⟩

def oneFile : Workload Nat :=
  { SrdInfo.emptyWorkload with checkedFiles := [⟨0, JSON.null.put fileHash (.hash zeroHash)⟩] }

theorem deleted_tree_is_read :
    isDeleted oneFile zerosHash.val = true ∧
      ∃ t, Runs.run (step smallMem (fun v _ => v) headed sealsMetadata) empty
          [⟨.file zerosHash, largeValue, setEnv true⟩] = some t ∧
        ¬ Gone smallMem headed (persistDel t.db zerosHash.val) (.file zerosHash) ∧
        ¬ ∀ env, Fails (persistGetUnsafe smallMem env
          (deleteFileRecords oneFile t.db zerosHash.val) zerosHash.val) := by
  have hlisted : isDeleted oneFile zerosHash.val = true := by decide +kernel
  have hlarge : ocallStoreThreshold < largeValue.val.length := by
    rw [largeValue, List.length_replicate]
    decide
  obtain ⟨t, hrun, hok⟩ := run_layout smallMem sealsMetadata
    [⟨.file zerosHash, largeValue, setEnv true⟩] (s := empty) layoutOk_empty
  have htree := hok (.file zerosHash)
  have hlayout := layout_of_large (v := sealsMetadata) (k := .file zerosHash) rfl hlarge
    (setEnv true)
  rw [layoutOf] at hlayout
  rw [hlayout] at htree
  refine ⟨hlisted, t, hrun, fun h => ?_, fun h => ?_⟩
  · cases ((gone_iff htree).mp h).1
  · cases (tree_gone_iff htree hlisted).mp h

end CrustSworker.PersistLayout

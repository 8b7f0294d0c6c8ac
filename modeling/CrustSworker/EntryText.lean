import CrustSworker.JsonRead
import CrustSworker.Seal

/-!
# The text of the entries

A value is written by `dump` and loses its layout afterwards: newlines, backslashes and
spaces are removed. For an object whose keys have none of them this leaves its fields one
after the other, and what the loader reads back is the object again. File entries and the
statistics per status are such objects.
-/

namespace CrustSworker.JsonParse

open OrderedMap Metadata

/-! ### Removing the layout -/

def Kept (s : Bytes) : Prop := ∀ c ∈ s, c ≠ 10 ∧ c ≠ 92 ∧ c ≠ 32

instance (s : Bytes) : Decidable (Kept s) := List.decidableBAll _ s

theorem strip_append (s t : Bytes) : strip (s ++ t) = strip s ++ strip t := by
  simp [strip, removeChar]

theorem strip_of_kept {s : Bytes} (h : Kept s) : strip s = s := by
  have hfilter : ∀ d : UInt8, (∀ c ∈ s, c ≠ d) → removeChar s d = s := by
    intro d hd
    exact List.filter_eq_self.mpr fun c hc => decide_eq_true (hd c hc)
  rw [strip, hfilter 10 fun c hc => (h c hc).1, hfilter 92 fun c hc => (h c hc).2.1,
    hfilter 32 fun c hc => (h c hc).2.2]

theorem kept_append {s t : Bytes} (hs : Kept s) (ht : Kept t) : Kept (s ++ t) := by
  intro c hc
  rcases List.mem_append.mp hc with h | h
  · exact hs c h
  · exact ht c h

theorem kept_hexstringSafe (s : Bytes) : Kept (hexstringSafe s) := by
  intro c hc
  obtain ⟨n, hn, rfl⟩ := mem_hexstringSafe hc
  exact hextable_kept hn

theorem kept_decInt (n : Int) : Kept (decInt n) := by
  intro c hc
  have hd := decInt_chars n c hc
  refine ⟨?_, ?_, ?_⟩ <;> rintro rfl <;> exact absurd hd (by decide)

theorem strip_pad (depth : Nat) : strip (JSON.pad depth) = [] := by
  have hnil : ∀ n : Nat, strip (List.replicate n 32) = [] := by
    intro n
    induction n with
    | zero => rfl
    | succ n ih =>
      rw [List.replicate_succ, ← List.singleton_append, strip_append, ih]
      decide
  exact hnil _

theorem strip_drop_pad (depth : Nat) : strip ((JSON.pad depth).drop 2) = [] := by
  have h := strip_pad (depth - 1)
  have hdrop : (JSON.pad depth).drop 2 = JSON.pad (depth - 1) := by
    simp only [JSON.pad, List.drop_replicate]
    congr 1
    omega
  rw [hdrop, h]

theorem commaSep_eq_flatMap (x : Bytes) (xs : List Bytes) :
    commaSep (x :: xs) = x ++ xs.flatMap fun y => 44 :: y := by
  induction xs generalizing x with
  | nil => simp [commaSep]
  | cons y ys ih => rw [commaSep_cons, ih y, List.flatMap_cons, List.cons_append]

section
variable (floatText : Bytes → Bytes → Bytes)

theorem strip_dumpField {key : Bytes} (hk : Kept key) (v : JSON) (depth : Nat) :
    strip (JSON.dumpField floatText (key, v) depth) =
      member key (strip (v.dumpAt floatText (depth + 1))) := by
  have hcolon : strip (str "\" : ") = str "\"" ++ str ":" := by decide
  have hquote : strip (str "\"") = str "\"" := by decide
  simp only [JSON.dumpField, strip_append, strip_pad, strip_of_kept hk, hcolon, hquote, member,
    quoted, List.nil_append, List.append_assoc]

theorem strip_dumpFields {fields : List (Bytes × JSON)} (hk : ∀ p ∈ fields, Kept p.1)
    (depth : Nat) : strip (JSON.dumpFields floatText fields depth false) =
      fields.flatMap fun p => 44 :: member p.1 (strip (p.2.dumpAt floatText (depth + 1))) := by
  induction fields with
  | nil => simp [JSON.dumpFields, strip, removeChar]
  | cons p fields ih =>
    have hcomma : strip (str ",\n") = [44] := by decide
    rw [JSON.dumpFields, if_neg (by decide), strip_append, strip_append, hcomma,
      strip_dumpField floatText (hk p List.mem_cons_self) p.2 depth,
      ih fun q hq => hk q (List.mem_cons_of_mem _ hq), List.flatMap_cons]
    simp

theorem strip_dump_object {fields : List (Bytes × JSON)} (hk : ∀ p ∈ fields, Kept p.1)
    (depth : Nat) : strip ((JSON.object fields).dumpAt floatText depth) =
      str "\x7b" ++ commaSep (fields.map fun p =>
        member p.1 (strip (p.2.dumpAt floatText (depth + 1)))) ++ str "\x7d" := by
  have hopen : strip (str "\x7b\n") = str "\x7b" := by decide
  have hline : strip (str "\n") = [] := by decide
  have hclose : strip (str "\x7d") = str "\x7d" := by decide
  have hbody : strip (JSON.dumpFields floatText fields depth true) =
      commaSep (fields.map fun p => member p.1 (strip (p.2.dumpAt floatText (depth + 1)))) := by
    cases fields with
    | nil => simp [JSON.dumpFields, strip, removeChar, commaSep]
    | cons p fields =>
      rw [JSON.dumpFields, if_pos rfl, List.nil_append, strip_append,
        strip_dumpField floatText (hk p List.mem_cons_self) p.2 depth,
        strip_dumpFields floatText (fun q hq => hk q (List.mem_cons_of_mem _ hq)), List.map_cons,
        commaSep_eq_flatMap, List.flatMap_map]
  simp only [JSON.dumpAt, strip_append, hopen, hline, hclose, hbody, strip_drop_pad,
    List.append_nil]

theorem strip_dump_integral (n : Int) (depth : Nat) :
    strip ((JSON.integral n).dumpAt floatText depth) = decInt n := by
  rw [JSON.dumpAt, strip_of_kept (kept_decInt n)]

theorem strip_dump_hash (h : Hash) (depth : Nat) :
    strip ((JSON.hash h).dumpAt floatText depth) = quoted (hashTag ++ hexstringSafe h.val) := by
  have hquote : Kept (str "\"") := by decide
  have htag : Kept hashTag := by decide
  rw [JSON.dumpAt, strip_of_kept (kept_append (kept_append (kept_append hquote htag)
    (kept_hexstringSafe h.val)) hquote), quoted]
  simp only [List.append_assoc]

theorem strip_dump_string {s : Bytes} (hs : NoEscape s) (hk : Kept s) (depth : Nat) :
    strip ((JSON.string s).dumpAt floatText depth) = quoted s := by
  have hquote : Kept (str "\"") := by decide
  rw [JSON.dumpAt, jsonEscape_of_noEscape hs,
    strip_of_kept (kept_append (kept_append hquote hk) hquote), quoted]

/-! ### Objects that are read as they were -/

/-- A key that neither the writer nor the reader changes. -/
structure PlainKey (k : Bytes) : Prop where
  noEscape : NoEscape k
  untagged : Untagged k
  kept : Kept k

instance (k : Bytes) : Decidable (PlainKey k) :=
  decidable_of_iff (NoEscape k ∧ Untagged k ∧ Kept k)
    ⟨fun h => ⟨h.1, h.2.1, h.2.2⟩, fun h => ⟨h.noEscape, h.untagged, h.kept⟩⟩

variable {loader : Loader} {mem : Mem}

theorem reads_dump_object {fields : List (Bytes × JSON)} (hs : Sorted ltBytes fields)
    (hk : ∀ p ∈ fields, PlainKey p.1) (depth : Nat)
    (hv : ∀ p ∈ fields, Token loader mem (strip (p.2.dumpAt floatText (depth + 1))) p.2) :
    Reads loader mem (strip ((JSON.object fields).dumpAt floatText depth)) (.object fields) := by
  have hfields : fields.map (fun p => (p.1, p.2)) = fields := by simp
  rw [strip_dump_object floatText (fun p hp => (hk p hp).kept), ← objectOf_sorted hs, ← hfields]
  have h : Reads loader mem
      (str "\x7b" ++ commaSep (fields.map fun p => member p.1 (strip (p.2.dumpAt floatText (depth + 1))))
        ++ str "\x7d") (objectOf (fields.map fun p => (p.1, p.2))) :=
    reads_object (fun p hp => (hk p hp).noEscape) (fun p hp => (hk p hp).untagged) hv
  simpa using h

theorem token_dump_object {fields : List (Bytes × JSON)} (hs : Sorted ltBytes fields)
    (hk : ∀ p ∈ fields, PlainKey p.1) (depth : Nat)
    (hv : ∀ p ∈ fields, Token loader mem (strip (p.2.dumpAt floatText (depth + 1))) p.2) :
    Token loader mem (strip ((JSON.object fields).dumpAt floatText depth)) (.object fields) := by
  refine (reads_dump_object floatText hs hk depth hv).token (c := 123)
    (t := commaSep (fields.map fun p => member p.1 (strip (p.2.dumpAt floatText (depth + 1))))
      ++ str "\x7d") ?_ (by decide) (by decide) (by decide)
  rw [strip_dump_object floatText fun p hp => (hk p hp).kept]
  rfl

end

/-! ### File entries -/

def IsLong (n : Int) : Prop := -2 ^ 63 ≤ n ∧ n < 2 ^ 63

instance (n : Int) : Decidable (IsLong n) := inferInstanceAs (Decidable (_ ∧ _))

structure Entry where
  blockNum : Int
  hash : Hash
  oldHash : Hash
  oldSize : Int
  size : Int
  status : Bytes

def Entry.json (e : Entry) : JSON :=
  .object [(fileBlockNum, .integral e.blockNum), (fileHash, .hash e.hash),
    (fileOldHash, .hash e.oldHash), (fileOldSize, .integral e.oldSize),
    (fileSize, .integral e.size), (fileStatus, .string e.status)]

structure Entry.Valid (e : Entry) : Prop where
  blockNum : IsLong e.blockNum
  oldSize : IsLong e.oldSize
  size : IsLong e.size
  length : e.status.length = 3
  chars : ∀ c ∈ e.status, statusUnconfirmed ≤ c ∧ c ≤ statusDeleted

theorem statusChars {s : Bytes}
    (h : (s.all fun c => decide (statusUnconfirmed ≤ c ∧ c ≤ statusDeleted)) = true) :
    ∀ c ∈ s, statusUnconfirmed ≤ c ∧ c ≤ statusDeleted := by
  intro c hc
  exact of_decide_eq_true (List.all_eq_true.mp h c hc)

/-- The entries the enclave makes: the six fields, and a status of three characters. -/
def IsEntry (j : JSON) : Prop := ∃ e : Entry, e.Valid ∧ j = e.json

theorem statusChar_plain {c : UInt8} (h : statusUnconfirmed ≤ c ∧ c ≤ statusDeleted) :
    escapeChar c = [c] ∧ c ≠ 36 ∧ c ≠ 10 ∧ c ≠ 92 ∧ c ≠ 32 := by
  obtain ⟨hlo, hhi⟩ := h
  simp only [statusUnconfirmed, statusDeleted, UInt8.le_iff_toNat_le] at hlo hhi
  have h48 : (48 : UInt8).toNat = 48 := rfl
  have h51 : (51 : UInt8).toNat = 51 := rfl
  obtain ⟨k, hk, hc⟩ : ∃ k, k < 4 ∧ c = UInt8.ofNat (48 + k) := by
    refine ⟨c.toNat - 48, by omega, ?_⟩
    rw [show 48 + (c.toNat - 48) = c.toNat by omega, UInt8.ofNat_toNat]
  subst hc
  clear hlo hhi
  interval_cases k <;> decide

theorem Entry.Valid.status_plain {e : Entry} (h : e.Valid) :
    NoEscape e.status ∧ Untagged e.status ∧ Kept e.status := by
  refine ⟨fun c hc => (statusChar_plain (h.chars c hc)).1, fun htag => ?_,
    fun c hc => (statusChar_plain (h.chars c hc)).2.2⟩
  have hmem : (36 : UInt8) ∈ e.status := by
    refine List.mem_of_mem_take (i := hashTag.length) ?_
    rw [htag]
    decide
  exact (statusChar_plain (h.chars 36 hmem)).2.1 rfl

theorem Entry.Valid.token {e : Entry} (h : e.Valid) (loader : Loader) (mem : Mem)
    (floatText : Bytes → Bytes → Bytes) :
    Token loader mem (strip (e.json.dump floatText)) e.json := by
  obtain ⟨hesc, htag, hkept⟩ := h.status_plain
  have hash : ∀ x : Hash, Token loader mem (strip ((JSON.hash x).dumpAt floatText (1 + 1)))
      (.hash x) := by
    intro x
    rw [strip_dump_hash, ← stringValue_tagged mem x]
    exact token_quoted (noEscape_append (by decide) (noEscape_hexstringSafe x.val))
  have int : ∀ n : Int, IsLong n →
      Token loader mem (strip ((JSON.integral n).dumpAt floatText (1 + 1))) (.integral n) := by
    intro n hn
    rw [strip_dump_integral]
    exact token_decInt hn.1 hn.2
  have status : Token loader mem (strip ((JSON.string e.status).dumpAt floatText (1 + 1)))
      (.string e.status) := by
    rw [strip_dump_string floatText hesc hkept, ← stringValue_untagged mem htag]
    exact token_quoted hesc
  refine token_dump_object floatText ?_ ?_ 1 ?_
  · simp only [Sorted, List.pairwise_cons, List.mem_cons, List.not_mem_nil, or_false,
      forall_eq_or_imp, forall_eq, false_implies, implies_true, List.Pairwise.nil, and_true]
    decide
  · simp only [List.mem_cons, List.not_mem_nil, or_false, forall_eq_or_imp, forall_eq]
    decide
  · simp only [List.mem_cons, List.not_mem_nil, or_false, forall_eq_or_imp, forall_eq]
    exact ⟨int _ h.blockNum, hash _, hash _, int _ h.oldSize, int _ h.size, status⟩

theorem isEntry_fileEntry (newHash orgHash : Hash) {nodeSize blockNum : Nat} {orgNodeSize : Int}
    (hn : IsLong nodeSize) (ho : IsLong orgNodeSize) (hb : IsLong blockNum) :
    IsEntry (Seal.fileEntry newHash orgHash nodeSize orgNodeSize blockNum) :=
  ⟨⟨blockNum, newHash, orgHash, orgNodeSize, nodeSize, str "000"⟩,
    ⟨hb, ho, hn, rfl, statusChars (s := str "000") (by decide)⟩, rfl⟩

theorem IsEntry.hasStatus {τ : Type} {f : FileItem τ} (h : IsEntry f.json) : f.HasStatus := by
  obtain ⟨e, he, hj⟩ := h
  refine ⟨e.status, ?_, he.length⟩
  rw [FileItem.status, hj]
  rfl

theorem IsEntry.statusChar {τ : Type} {f : FileItem τ} (h : IsEntry f.json) {i : Nat} (hi : i < 3) :
    statusUnconfirmed ≤ f.statusChar i ∧ f.statusChar i ≤ statusDeleted := by
  obtain ⟨e, he, hj⟩ := h
  have hget : f.status = .string e.status := by
    rw [FileItem.status, hj]
    rfl
  have hlt : i < e.status.length := by
    rw [he.length]
    exact hi
  have hchar : e.status.getD i 0 = e.status[i] := by
    rw [List.getD_eq_getElem?_getD, List.getElem?_eq_getElem hlt, Option.getD_some]
  rw [FileItem.statusChar, hget, JSON.getChar, hchar]
  exact he.chars _ (List.getElem_mem hlt)

theorem IsEntry.setStatusChar {τ : Type} {f : FileItem τ} (h : IsEntry f.json) {i : Nat}
    (hi : i < 3) {c : UInt8} (hc : statusUnconfirmed ≤ c ∧ c ≤ statusDeleted) :
    IsEntry (f.setStatusChar i c).json := by
  obtain ⟨e, he, hj⟩ := h
  refine ⟨{ e with status := e.status.set i c }, ⟨he.blockNum, he.oldSize, he.size, ?_, ?_⟩, ?_⟩
  · simpa using he.length
  · intro d hd
    rcases List.mem_or_eq_of_mem_set hd with hd | rfl
    · exact he.chars d hd
    · exact hc
  · have hne : i ≠ e.status.length := by
      rw [he.length]
      omega
    have hset : (JSON.string e.status).setChar i c = .string (e.status.set i c) := by
      rw [JSON.setChar, if_neg hne]
    have hstatus : e.json.get fileStatus = .string e.status := rfl
    simp only [FileItem.setStatusChar, FileItem.status, hj, hstatus, hset]
    rfl

/-! ### Statistics -/

structure IsSpec (spec : JSON) : Prop where
  fields : ∃ fields, spec = .object fields ∧ Sorted ltBytes fields ∧
    ∀ p ∈ fields, PlainKey p.1 ∧ ∃ sub, p.2 = .object sub ∧ Sorted ltBytes sub ∧
      ∀ q ∈ sub, PlainKey q.1 ∧ ∃ n, q.2 = .integral n ∧ IsLong n

theorem load_dump_object (mem : Mem) (floatText : Bytes → Bytes → Bytes)
    {fields : List (Bytes × JSON)} (hs : Sorted ltBytes fields) (hk : ∀ p ∈ fields, PlainKey p.1)
    (hv : ∀ p ∈ fields, Token .text mem (strip (p.2.dumpAt floatText (1 + 1))) p.2) :
    JsonParse.load mem (strip ((JSON.object fields).dump floatText)) = .ok (.object fields) := by
  have hreads : Reads .text mem (strip ((JSON.object fields).dumpAt floatText 1))
      (.object fields) := reads_dump_object floatText hs hk 1 hv
  refine load_of_reads hreads ?_
  rw [JSON.dump, strip_dump_object floatText fun p hp => (hk p hp).kept]
  simp [str]

theorem load_numbers (mem : Mem) (floatText : Bytes → Bytes → Bytes) {fields : List (Bytes × JSON)}
    (hs : Sorted ltBytes fields)
    (hf : ∀ p ∈ fields, PlainKey p.1 ∧ ∃ n, p.2 = .integral n ∧ IsLong n) :
    JsonParse.load mem (strip ((JSON.object fields).dump floatText)) = .ok (.object fields) := by
  refine load_dump_object mem floatText hs (fun p hp => (hf p hp).1) fun p hp => ?_
  obtain ⟨n, hn, hlong⟩ := (hf p hp).2
  rw [hn, strip_dump_integral]
  exact token_decInt hlong.1 hlong.2

theorem IsSpec.load {spec : JSON} (h : IsSpec spec) (mem : Mem)
    (floatText : Bytes → Bytes → Bytes) :
    JsonParse.load mem (strip (spec.dump floatText)) = .ok spec := by
  obtain ⟨fields, rfl, hs, hf⟩ := h.fields
  refine load_dump_object mem floatText hs (fun p hp => (hf p hp).1) fun p hp => ?_
  obtain ⟨sub, hsub, hss, hq⟩ := (hf p hp).2
  rw [hsub]
  refine token_dump_object floatText hss (fun q hq' => (hq q hq').1) (1 + 1) fun q hq' => ?_
  obtain ⟨n, hn, hlong⟩ := (hq q hq').2
  rw [hn, strip_dump_integral]
  exact token_decInt hlong.1 hlong.2

/-! ### The lists -/

section
variable {τ : Type} {loader : Loader} {mem : Mem}

theorem token_files (floatText : Bytes → Bytes → Bytes) {files : List (FileItem τ)}
    (h : ∀ f ∈ files, IsEntry f.json) :
    Token loader mem
      (str "[" ++ commaSep (files.map fun f => strip (f.json.dump floatText)) ++ str "]")
      (.array (files.map FileItem.json)) := by
  refine token_array fun f hf => ?_
  obtain ⟨e, he, hj⟩ := h f hf
  rw [hj]
  exact he.token loader mem floatText

def gHashAt (mem : Mem) (g : Bytes) : Bytes := (mem.read g 32).val

def srdValue (mem : Mem) (m : List (Bytes × List Bytes)) : JSON :=
  .object (m.map fun p => (p.1, .array (p.2.map fun g => .string (hexstringSafe (gHashAt mem g)))))

theorem srdEntry_eq_member (p : Bytes × List Bytes) :
    srdEntry mem p = member p.1
      (str "[" ++ commaSep (p.2.map fun g => quoted (hexstringSafe (gHashAt mem g))) ++ str "]") := by
  have hsep : str "\":[" = str "\"" ++ (str ":" ++ str "[") := by decide
  simp only [srdEntry, member, quoted, gHashAt, hsep, List.append_assoc]

theorem sorted_map_fst {α β : Type} {m : List (Bytes × α)} (h : Sorted ltBytes m) (f : α → β) :
    Sorted ltBytes (m.map fun p => (p.1, f p.2)) :=
  List.pairwise_map.mpr h

theorem token_srd {m : List (Bytes × List Bytes)} (hs : Sorted ltBytes m)
    (hn : ∀ p ∈ m, NoEscape p.1) (hu : ∀ p ∈ m, Untagged p.1) :
    Token loader mem (str "\x7b" ++ commaSep (m.map (srdEntry mem)) ++ str "\x7d")
      (srdValue mem m) := by
  have htok : ∀ p ∈ m, Token loader mem
      (str "[" ++ commaSep (p.2.map fun g => quoted (hexstringSafe (gHashAt mem g))) ++ str "]")
      (.array (p.2.map fun g => .string (hexstringSafe (gHashAt mem g)))) := by
    intro p _
    refine token_array fun g _ => ?_
    rw [← stringValue_untagged mem (untagged_hexstringSafe _)]
    exact token_quoted (noEscape_hexstringSafe (gHashAt mem g))
  have h := token_object hn hu htok
  have hsorted := sorted_map_fst hs fun gs : List Bytes =>
    JSON.array (gs.map fun g => .string (hexstringSafe (gHashAt mem g)))
  rw [objectOf_sorted hsorted] at h
  rw [funext srdEntry_eq_member]
  exact h

/-! ### Restoring the G hashes -/

/-- What is left of the map: a path without hashes is not restored. -/
def storedSrd (mem : Mem) (m : List (Bytes × List Bytes)) : List (Bytes × List Bytes) :=
  (m.filter fun p => p.2 ≠ []).map fun p => (p.1, p.2.map (gHashAt mem))

theorem hexPairs_toStr_stored (mem : Mem) (g : Bytes) :
    hexPairs (JSON.string (hexstringSafe (gHashAt mem g))).toStr = gHashAt mem g := by
  rw [JSON.toStr, jsonEscape_of_noEscape (noEscape_hexstringSafe _), hexPairs_hexstringSafe]

theorem foldl_pushHash_stored {path : Bytes} {m : List (Bytes × List Bytes)}
    (h : ∀ q ∈ m, ltBytes q.1 path = true) (done gs : List Bytes) :
    (gs.map fun g => JSON.string (hexstringSafe (gHashAt mem g))).foldl
        (fun m h => Workload.pushHash m path (hexPairs h.toStr)) (m ++ [(path, done)]) =
      m ++ [(path, done ++ gs.map (gHashAt mem))] := by
  induction gs generalizing done with
  | nil => simp
  | cons g gs ih =>
    obtain ⟨hi, hf⟩ := insertKey_over_last isOrder_ltBytes (done ++ [gHashAt mem g]) done h
    rw [List.map_cons, List.foldl_cons, hexPairs_toStr_stored, Workload.pushHash, hf,
      Option.getD_some, hi, ih]
    simp

theorem foldl_pushHash_first (mem : Mem) {path : Bytes} {m : List (Bytes × List Bytes)}
    (h : ∀ q ∈ m, ltBytes q.1 path = true) (gs : List Bytes) :
    (gs.map fun g => JSON.string (hexstringSafe (gHashAt mem g))).foldl
        (fun m h => Workload.pushHash m path (hexPairs h.toStr)) m =
      m ++ storedSrd mem [(path, gs)] := by
  cases gs with
  | nil => simp [storedSrd]
  | cons g gs =>
    have hnone : findKey path m = none := by
      refine findKey_none fun q hq heq => ?_
      have := h q hq
      rw [heq, ltBytes_irrefl] at this
      cases this
    rw [List.map_cons, List.foldl_cons, hexPairs_toStr_stored, Workload.pushHash, hnone,
      Option.getD_none, List.nil_append, insertKey_last isOrder_ltBytes h,
      foldl_pushHash_stored h _ gs]
    simp [storedSrd]

theorem mem_storedSrd {m : List (Bytes × List Bytes)} {q : Bytes × List Bytes}
    (h : q ∈ storedSrd mem m) : ∃ p ∈ m, q.1 = p.1 := by
  obtain ⟨p, hp, rfl⟩ := List.mem_map.mp h
  exact ⟨p, List.mem_of_mem_filter hp, rfl⟩

theorem statedHashs_stored {m : List (Bytes × List Bytes)} (hs : Sorted ltBytes m) :
    Workload.statedHashs (srdValue mem m).objectRange [] = storedSrd mem m := by
  have hgo : ∀ (m done : List (Bytes × List Bytes)), Sorted ltBytes m →
      (∀ q ∈ done, ∀ p ∈ m, ltBytes q.1 p.1 = true) →
      Workload.statedHashs (srdValue mem m).objectRange done = done ++ storedSrd mem m := by
    intro m
    induction m with
    | nil => simp [srdValue, JSON.objectRange, Workload.statedHashs, storedSrd]
    | cons p m ih =>
      intro done hm hdone
      obtain ⟨hhead, htail⟩ := List.pairwise_cons.mp hm
      simp only [srdValue, JSON.objectRange, List.map_cons]
      have hfirst := foldl_pushHash_first mem (fun q hq => hdone q hq p List.mem_cons_self) p.2
      have hnext := ih (done ++ storedSrd mem [(p.1, p.2)]) htail fun q hq r hr => by
        rcases List.mem_append.mp hq with hq | hq
        · exact hdone q hq r (List.mem_cons_of_mem _ hr)
        · obtain ⟨p', hp', hkey⟩ := mem_storedSrd hq
          rw [hkey, List.mem_singleton.mp hp']
          exact hhead r hr
      simp only [srdValue, JSON.objectRange] at hnext
      rw [Workload.statedHashs, List.foldl_cons]
      dsimp only [JSON.loopRange]
      rw [hfirst]
      refine hnext.trans ?_
      rw [List.append_assoc]
      congr 1
      unfold storedSrd
      rw [← List.map_append, ← List.filter_append]
      rfl
  simpa using hgo m [] hs (by simp)

theorem decodable_stored {malloc : Bytes → Nat → Bool} {m : List (Bytes × List Bytes)}
    (hbuf : Workload.HashBuffers malloc m) :
    Workload.Decodable malloc (srdValue mem m).objectRange := by
  intro p hp h hh
  simp only [srdValue, JSON.objectRange] at hp
  obtain ⟨q, hq, rfl⟩ := List.mem_map.mp hp
  simp only [JSON.loopRange, List.zipIdx_map] at hh
  obtain ⟨⟨g, i⟩, hg, rfl⟩ := List.mem_map.mp hh
  have hi : i < q.2.length := by
    have := List.snd_lt_of_mem_zipIdx hg
    omega
  have hlen : (gHashAt mem g).length = 32 := (mem.read g 32).property
  dsimp only [Prod.map, id]
  rw [JSON.toStr, jsonEscape_of_noEscape (noEscape_hexstringSafe _), hbuf q hq i hi,
    hexStringToBytesWith, length_hexstringSafe, hlen]
  rfl

theorem restorePaths_stored {malloc : Bytes → Nat → Bool} {m : List (Bytes × List Bytes)}
    (hs : Sorted ltBytes m) (hbuf : Workload.HashBuffers malloc m) :
    Workload.restorePaths malloc (srdValue mem m).objectRange [] = some (storedSrd mem m) := by
  rw [Workload.restorePaths_eq_some (decodable_stored hbuf), statedHashs_stored hs]

end

end CrustSworker.JsonParse

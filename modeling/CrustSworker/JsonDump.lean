import CrustSworker.EntryText

/-!
# Documents that survive their layout

`serialize_file` and its siblings write a value with `dump` and remove every newline, backslash
and space from the text. Whatever the depth and the shape of the value, the loader reads the
same value from what is left, as long as no key looks like a hash: a key is read by the function
that reads the values, and is turned back into text afterwards.
-/

namespace CrustSworker.JsonParse

open OrderedMap Metadata

def CleanText (s : Bytes) : Prop := ∀ c ∈ s, c ≠ 34 ∧ c ≠ 92 ∧ 32 < c ∧ c ≠ 127

instance (s : Bytes) : Decidable (CleanText s) := List.decidableBAll _ s

/-- Values of objects, arrays, hashes, 64-bit integers and strings. -/
inductive Storable (goodKey : Bytes → Prop) : JSON → Prop
  | object {fields : List (Bytes × JSON)} (sorted : Sorted ltBytes fields)
      (keys : ∀ p ∈ fields, CleanText p.1 ∧ goodKey p.1)
      (values : ∀ p ∈ fields, Storable goodKey p.2) : Storable goodKey (.object fields)
  | array {items : List JSON} (values : ∀ j ∈ items, Storable goodKey j) :
      Storable goodKey (.array items)
  | hash (h : Hash) : Storable goodKey (.hash h)
  | integral {n : Int} (long : IsLong n) : Storable goodKey (.integral n)
  | string {s : Bytes} (clean : CleanText s) (untagged : Untagged s) : Storable goodKey (.string s)

theorem CleanText.kept {s : Bytes} (h : CleanText s) : Kept s := by
  intro c hc
  obtain ⟨-, h92, h32, -⟩ := h c hc
  refine ⟨?_, h92, ?_⟩
  · rintro rfl
    exact absurd h32 (by decide)
  · rintro rfl
    exact absurd h32 (by decide)

theorem CleanText.noEscape {s : Bytes} (h : CleanText s) : NoEscape s := by
  intro c hc
  obtain ⟨h34, h92, h32, -⟩ := h c hc
  have hlow : ∀ d : UInt8, d ≤ 32 → c ≠ d := by
    rintro d hd rfl
    exact absurd h32 (UInt8.not_lt.mpr hd)
  rw [escapeChar, if_neg h34, if_neg h92, if_neg (hlow 8 (by decide)),
    if_neg (hlow 12 (by decide)), if_neg (hlow 10 (by decide)), if_neg (hlow 13 (by decide)),
    if_neg (hlow 9 (by decide))]

section
variable (floatText : Bytes → Bytes → Bytes) {loader : Loader} {mem : Mem}

/-! ### Arrays -/

theorem strip_dumpItems (items : List JSON) (depth : Nat) :
    strip (JSON.dumpItems floatText items depth false) =
      items.flatMap fun j => 44 :: strip (j.dumpAt floatText (depth + 1)) := by
  induction items with
  | nil => simp [JSON.dumpItems, strip, removeChar]
  | cons j items ih =>
    have hcomma : strip (str ", ") = [44] := by decide
    rw [JSON.dumpItems, if_neg (by decide), strip_append, strip_append, hcomma, ih,
      List.flatMap_cons, List.singleton_append]

theorem strip_dump_array (items : List JSON) (depth : Nat) :
    strip ((JSON.array items).dumpAt floatText depth) =
      str "[" ++ commaSep (items.map fun j => strip (j.dumpAt floatText (depth + 1))) ++ str "]" := by
  have hopen : strip (str "[") = str "[" := by decide
  have hclose : strip (str "]") = str "]" := by decide
  have hbody : strip (JSON.dumpItems floatText items depth true) =
      commaSep (items.map fun j => strip (j.dumpAt floatText (depth + 1))) := by
    cases items with
    | nil => simp [JSON.dumpItems, strip, removeChar, commaSep]
    | cons j items =>
      rw [JSON.dumpItems, if_pos rfl, List.nil_append, strip_append,
        strip_dumpItems floatText items depth, List.map_cons, commaSep_eq_flatMap, List.flatMap_map]
  rw [JSON.dumpAt, strip_append, strip_append, hopen, hclose, hbody]

theorem token_dump_array {items : List JSON} (depth : Nat)
    (hv : ∀ j ∈ items, Token loader mem (strip (j.dumpAt floatText (depth + 1))) j) :
    Token loader mem (strip ((JSON.array items).dumpAt floatText depth)) (.array items) := by
  rw [strip_dump_array]
  simpa using token_array hv

/-! ### Every value -/

/-- By induction on the shape of the value, at every depth. -/
theorem Storable.token {j : JSON} (h : Storable Untagged j) (depth : Nat) :
    Token loader mem (strip (j.dumpAt floatText depth)) j := by
  induction h generalizing depth with
  | object sorted keys _ ih =>
    refine token_dump_object floatText sorted (fun p hp => ?_) depth fun p hp => ih p hp (depth + 1)
    obtain ⟨hclean, huntagged⟩ := keys p hp
    exact ⟨hclean.noEscape, huntagged, hclean.kept⟩
  | array _ ih => exact token_dump_array floatText depth fun j hj => ih j hj (depth + 1)
  | hash h =>
    rw [strip_dump_hash, ← stringValue_tagged mem h]
    exact token_quoted (noEscape_append (by decide) (noEscape_hexstringSafe h.val))
  | integral long =>
    rw [strip_dump_integral]
    exact token_decInt long.1 long.2
  | string clean untagged =>
    rw [strip_dump_string floatText clean.noEscape clean.kept, ← stringValue_untagged mem untagged]
    exact token_quoted clean.noEscape

theorem Storable.reads {fields : List (Bytes × JSON)} (h : Storable Untagged (.object fields)) :
    Reads loader mem (strip ((JSON.object fields).dump floatText)) (.object fields) := by
  cases h with
  | object sorted keys values =>
    refine reads_dump_object floatText sorted (fun p hp => ?_) 1 fun p hp =>
      (values p hp).token floatText 2
    obtain ⟨hclean, huntagged⟩ := keys p hp
    exact ⟨hclean.noEscape, huntagged, hclean.kept⟩

theorem strip_dump_object_ne_nil (fields : List (Bytes × JSON)) :
    strip ((JSON.object fields).dump floatText) ≠ [] := by
  have hopen : strip (str "\x7b\n") = str "\x7b" := by decide
  intro hnil
  rw [JSON.dump, JSON.dumpAt, strip_append, strip_append, strip_append, strip_append, hopen] at hnil
  simp [str] at hnil

/-- An object with plain keys comes back from its dump without the layout, in both overloads. -/
theorem stripped_dump_read_back {fields : List (Bytes × JSON)}
    (h : Storable Untagged (.object fields)) :
    load mem (strip ((JSON.object fields).dump floatText)) = .ok (.object fields) ∧
      loadBuffer mem (strip ((JSON.object fields).dump floatText))
        (strip ((JSON.object fields).dump floatText)).length = .ok (.object fields) := by
  have hne := strip_dump_object_ne_nil floatText fields
  refine ⟨load_of_reads (h.reads floatText) hne, ?_⟩
  have hsize := mt List.length_eq_zero_iff.mp hne
  have hbuffer := @loadBuffer_of_reads mem _ _ (h.reads floatText) [] _ hsize
  rwa [List.append_nil] at hbuffer

end

/-! ### A key that looks like a hash -/

def plainDocument : List (Bytes × JSON) :=
  [(str "files", .array [.hash zeroHash, .object [], .array [.string (str "a")]]),
    (str "n", .integral (-9223372036854775808))]

theorem plainDocument_storable : Storable Untagged (.object plainDocument) := by
  have hsorted : Sorted ltBytes plainDocument := by
    refine List.pairwise_pair.mpr ?_
    decide
  refine .object hsorted (fun p hp => ?_) fun p hp => ?_
  · rcases List.mem_pair.mp hp with rfl | rfl
    · decide
    · decide
  · rcases List.mem_pair.mp hp with rfl | rfl
    · refine .array fun j hj => ?_
      simp only [List.mem_cons, List.not_mem_nil, or_false] at hj
      rcases hj with rfl | rfl | rfl
      · exact .hash zeroHash
      · exact .object (sorted_nil _) nofun nofun
      · refine .array fun k hk => ?_
        rw [List.mem_singleton.mp hk]
        exact .string (by decide) (by decide)
    · exact .integral (by decide)

theorem plainDocument_read_back :
    load ⟨fun _ _ => 0⟩ (strip ((JSON.object plainDocument).dump fun _ _ => [])) =
        .ok (.object plainDocument) ∧
      loadBuffer ⟨fun _ _ => 0⟩ (strip ((JSON.object plainDocument).dump fun _ _ => []))
          (strip ((JSON.object plainDocument).dump fun _ _ => [])).length =
        .ok (.object plainDocument) :=
  stripped_dump_read_back (fun _ _ => []) plainDocument_storable

def taggedKey : Bytes := hashTag ++ str "a"

def taggedDocument : List (Bytes × JSON) := [(taggedKey, .integral 1)]

theorem tagged_key_changed :
    Storable (fun _ => True) (.object taggedDocument) ∧
      (JSON.object taggedDocument).hasKey taggedKey = true ∧
      ∃ doc, load ⟨fun _ _ => 0⟩ (strip ((JSON.object taggedDocument).dump fun _ _ => [])) =
        .ok doc ∧ doc.hasKey (str "a") = true ∧ doc.hasKey taggedKey = false := by
  refine ⟨.object (List.pairwise_singleton _ _) (fun p hp => ?_) fun p hp => ?_, by decide, ?_⟩
  · rw [List.mem_singleton.mp hp]
    exact ⟨by decide, trivial⟩
  · rw [List.mem_singleton.mp hp]
    exact .integral (by decide)
  · have hread : (match load ⟨fun _ _ => 0⟩
        (strip ((JSON.object taggedDocument).dump fun _ _ => [])) with
      | .ok doc => doc.hasKey (str "a") && !doc.hasKey taggedKey
      | .error _ => false) = true := by decide +kernel
    split at hread
    · rename_i doc hdoc
      obtain ⟨hnew, hold⟩ := Bool.and_eq_true_iff.mp hread
      exact ⟨doc, hdoc, hnew, by simpa using hold⟩
    · cases hread

end CrustSworker.JsonParse

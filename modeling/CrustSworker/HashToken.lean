import CrustSworker.HexCodec

/-!
# Which strings become hashes

`parse_string` takes the mark off a tagged text first and lets `hex_string_to_bytes` decide then.
That function takes any even number of any characters, and 32 bytes are copied from what it
returns; where it returns `NULL` the text stays without its mark.
-/

namespace CrustSworker.HashToken

open JsonParse MerkleExact HexCodec

section
variable (allocs : Allocs) (mem : Mem)

def stringValueIn (val : Bytes) : JSON :=
  if val.take hashTag.length = hashTag then
    match hexStringToBytesIn allocs (val.drop hashTag.length) with
    | some p => .hash (mem.read p 32)
    | none => .string (val.drop hashTag.length)
  else .string val

def parseStringIn (s : Cursor) : Parsed JSON :=
  match stringLoop s [] with
  | .error f => .error f
  | .ok (none, t) => .ok (.string [], t)
  | .ok (some val, t) => .ok (stringValueIn allocs mem val, t)

end

/-- A hash for the mark and 64 hex digits, the one they denote, and the text itself otherwise. -/
structure TokenRight (val : Bytes) (j : JSON) : Prop where
  hash_iff : (∃ h, j = .hash h) ↔ ∃ digits, val = hashTag ++ digits ∧ HexText digits
  denotes : ∀ h digits, j = .hash h → val = hashTag ++ digits → HexText digits → Decodes digits h
  other : (∀ h, j ≠ .hash h) → j = .string val

section
variable {allocs : Allocs} {mem : Mem} {val digits : Bytes}

theorem stringValueIn_served (h : allocs.Serve ((val.drop hashTag.length).length / 2)) :
    stringValueIn allocs mem val = stringValue mem val := by
  have hbytes : hexStringToBytesIn allocs (val.drop hashTag.length) =
      hexStringToBytes (val.drop hashTag.length) := by
    rw [hexStringToBytesIn, if_neg (not_not.mpr h.hexToBytes)]
    rfl
  cases hp : hexStringToBytes (val.drop hashTag.length) with
  | none => rw [stringValueIn, stringValue, hbytes, hp]
  | some p => rw [stringValueIn, stringValue, hbytes, hp]

theorem tagged_or_untagged (val : Bytes) : Untagged val ∨ ∃ tail, val = hashTag ++ tail := by
  by_cases h : val.take hashTag.length = hashTag
  · refine .inr ⟨val.drop hashTag.length, ?_⟩
    calc val = val.take hashTag.length ++ val.drop hashTag.length := (List.take_append_drop _ _).symm
      _ = hashTag ++ val.drop hashTag.length := by rw [h]
  · exact .inl h

theorem not_untagged (tail : Bytes) : ¬ Untagged (hashTag ++ tail) := fun h => h List.take_left

theorem stringValueIn_untagged (h : Untagged val) : stringValueIn allocs mem val = .string val :=
  if_neg h

theorem stringValueIn_tagged (tail : Bytes) :
    stringValueIn allocs mem (hashTag ++ tail) =
      match hexStringToBytesIn allocs tail with
      | some p => .hash (mem.read p 32)
      | none => .string tail := by
  rw [stringValueIn, if_pos List.take_left, List.drop_left]

theorem tokenRight_untagged (h : Untagged val) : TokenRight val (.string val) where
  hash_iff := by
    constructor
    · rintro ⟨h, hj⟩
      cases hj
    · rintro ⟨digits, rfl, -⟩
      exact absurd h (not_untagged digits)
  denotes h _ hj := JSON.noConfusion hj
  other _ := rfl

theorem tokenRight_digits (hd : HexText digits) (hbuf : encMalloc allocs.hexToBytes 32 = true) :
    TokenRight (hashTag ++ digits) (stringValueIn allocs mem (hashTag ++ digits)) := by
  have hhalf : digits.length / 2 = 32 := by rw [hd.1]
  have hbytes : hexStringToBytesIn allocs digits = some (hexPairs digits) := by
    have hlen := hd.1
    rw [hexStringToBytesIn, if_neg (by omega), hhalf, if_neg (not_not.mpr hbuf)]
  have hfull : (hexPairs digits).length = 32 := by rw [length_hexPairs, hhalf]
  have hread : (mem.read (hexPairs digits) 32).val = hexPairs digits := by
    rw [mem.read_of_le hfull.ge, List.take_of_length_le hfull.le]
  rw [stringValueIn_tagged, hbytes]
  refine ⟨⟨fun _ => ⟨digits, rfl, hd⟩, fun _ => ⟨_, rfl⟩⟩, fun h d hj hsplit _ => ?_, fun h => ?_⟩
  · cases hj
    obtain rfl := List.append_cancel_left hsplit
    rw [Decodes, hread]
    exact hexstringSafe_hexPairs digits (by rw [hd.1]) hd.2
  · exact absurd rfl (h _)

theorem not_tokenRight {tail : Bytes}
    (h : ¬ (HexText tail ∧ encMalloc allocs.hexToBytes 32 = true)) :
    ¬ TokenRight (hashTag ++ tail) (stringValueIn allocs mem (hashTag ++ tail)) := by
  intro hright
  rw [stringValueIn_tagged] at hright
  cases hb : hexStringToBytesIn allocs tail with
  | some p =>
    rw [hb] at hright
    obtain ⟨digits, hsplit, hd⟩ := hright.hash_iff.mp ⟨_, rfl⟩
    obtain rfl := List.append_cancel_left hsplit
    refine h ⟨hd, ?_⟩
    have hlen := hd.1
    have hhalf : tail.length / 2 = 32 := by omega
    rw [hexStringToBytesIn, if_neg (by omega), hhalf] at hb
    by_contra hbuf
    rw [if_pos hbuf] at hb
    cases hb
  | none =>
    rw [hb] at hright
    have hstring := JSON.string.inj (hright.other fun _ => JSON.noConfusion)
    have hlen := congrArg List.length hstring
    have htag : hashTag.length = 6 := by decide
    rw [List.length_append, htag] at hlen
    omega

theorem tokenRight_iff (val : Bytes) :
    TokenRight val (stringValueIn allocs mem val) ↔ Untagged val ∨
      ∃ digits, val = hashTag ++ digits ∧ HexText digits ∧ encMalloc allocs.hexToBytes 32 = true := by
  constructor
  · intro hright
    refine (tagged_or_untagged val).imp_right ?_
    rintro ⟨tail, rfl⟩
    by_contra hnot
    exact not_tokenRight (fun h => hnot ⟨tail, rfl, h.1, h.2⟩) hright
  · rintro (h | ⟨digits, rfl, hd, hbuf⟩)
    · rw [stringValueIn_untagged h]
      exact tokenRight_untagged h
    · exact tokenRight_digits hd hbuf

/-- A token whose text is decoded up to its closing quote has the right value exactly when the
text has no mark, or the mark and 64 hex digits with a buffer for their bytes. -/
theorem parse_string_right_iff {s rest : Cursor} (h : stringLoop s [] = .ok (some val, rest)) :
    ∃ j, parseStringIn allocs mem s = .ok (j, rest) ∧
      (TokenRight val j ↔ Untagged val ∨
        ∃ digits, val = hashTag ++ digits ∧ HexText digits ∧
          encMalloc allocs.hexToBytes 32 = true) := by
  refine ⟨stringValueIn allocs mem val, ?_, tokenRight_iff val⟩
  rw [parseStringIn, h]

end

def zeroMem : Mem := ⟨fun _ _ => 0⟩

theorem parse_string_right_abc :
    ∃ j, parseStringIn served zeroMem (str "a\\\"bc\", 1]") = .ok (j, str ", 1]") ∧
      TokenRight (str "a\"bc") j := by
  have hdecoded : stringLoop (str "a\\\"bc\", 1]") [] = .ok (some (str "a\"bc"), str ", 1]") := by
    decide +kernel
  obtain ⟨j, hj, hiff⟩ := @parse_string_right_iff served zeroMem _ _ _ hdecoded
  exact ⟨j, hj, hiff.mpr (.inl (by decide))⟩

theorem short_digits_become_hash :
    ∃ j, parseStringIn served ⟨fun _ _ => 7⟩ (str "$&JT&$abcdef\"") = .ok (j, []) ∧
      (∃ h : Hash, j = .hash h ∧ h.val = [0xAB, 0xCD, 0xEF] ++ List.replicate 29 7) ∧
      ¬ TokenRight (str "$&JT&$abcdef") j := by
  have hdecoded : stringLoop (str "$&JT&$abcdef\"") [] = .ok (some (str "$&JT&$abcdef"), []) := by
    decide +kernel
  have hvalue : stringValueIn served ⟨fun _ _ => 7⟩ (str "$&JT&$abcdef") =
      .hash (Mem.read ⟨fun _ _ => 7⟩ [0xAB, 0xCD, 0xEF] 32) := by
    have htext : str "$&JT&$abcdef" = hashTag ++ str "abcdef" := by decide
    have hbytes : hexStringToBytesIn served (str "abcdef") = some [0xAB, 0xCD, 0xEF] := by
      decide +kernel
    rw [htext, stringValueIn_tagged, hbytes]
  refine ⟨_, ?_, ⟨_, hvalue, by decide⟩, fun hright => ?_⟩
  · rw [parseStringIn, hdecoded]
  · obtain ⟨digits, hsplit, hlen, -⟩ := hright.hash_iff.mp ⟨_, hvalue⟩
    have htotal := congrArg List.length hsplit
    rw [List.length_append, hlen] at htotal
    exact absurd htotal (by decide)

end CrustSworker.HashToken

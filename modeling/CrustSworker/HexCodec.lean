import CrustSworker.MerkleExact
import CrustSworker.SrdCredit

/-!
# Three encoders and a decoder

`hexstring_safe` and `json::_hexstring` look every digit up in a table and return an empty text
without a buffer; `unsigned_char_array_to_hex_string` computes the digits, ends the text with a
NUL byte and throws without a buffer. Where the buffers are there the texts are the same.
-/

namespace CrustSworker.HexCodec

open JsonParse MerkleExact SrdCredit

/-- What the allocator answers to each codec. -/
structure Allocs where
  hexstringSafe : Bool
  jsonHexstring : Bool
  arrayToHex : Bool
  hexToBytes : Bool

section
variable (allocs : Allocs)

def hexstringSafeIn (src : Bytes) : Bytes :=
  if encMalloc allocs.hexstringSafe (src.length * 2) then
    src.flatMap fun b => [hextable (b.toNat / 16), hextable (b.toNat % 16)]
  else []

def jsonHexstring (src : Bytes) : Bytes :=
  if encMalloc allocs.jsonHexstring (src.length * 2) then
    src.flatMap fun b =>
      [(str "0123456789abcdef").getD (b.toNat / 16) 0, (str "0123456789abcdef").getD (b.toNat % 16) 0]
  else []

def unsignedCharToHex (c : UInt8) : Bytes :=
  [if c / 16 < 10 then c / 16 + 48 else c / 16 - 10 + 97,
    if c % 16 < 10 then c % 16 + 48 else c % 16 - 10 + 97]

/-- `none` is a `bad_alloc`. The text ends at the first NUL byte. -/
def unsignedCharArrayToHexString (src : Bytes) : Option Bytes :=
  if encMalloc allocs.arrayToHex (src.length * 2 + 1) then
    some ((src.flatMap unsignedCharToHex ++ [0]).takeWhile fun c => decide (c ≠ 0))
  else none

def hexStringToBytesIn (src : Bytes) : Option Bytes :=
  if src.length % 2 ≠ 0 ∨ src.length = 0 then none
  else if ¬ encMalloc allocs.hexToBytes (src.length / 2) then none
  else some (hexPairs src)

def gPathWithHashIn (dirPath : Bytes) (hash : Hash) : Option Bytes :=
  (unsignedCharArrayToHexString allocs hash.val).map fun text => dirPath ++ str "/" ++ text

/-- `del_path` of `srd_decrease` and `g_path` of `validate_srd`. -/
def gPathIn (dirPath : Bytes) (hash : Hash) : Bytes :=
  dirPath ++ str "/" ++ hexstringSafeIn allocs hash.val

structure Allocs.Serve (num : Nat) : Prop where
  hexstringSafe : encMalloc allocs.hexstringSafe (num * 2) = true
  jsonHexstring : encMalloc allocs.jsonHexstring (num * 2) = true
  arrayToHex : encMalloc allocs.arrayToHex (num * 2 + 1) = true
  hexToBytes : encMalloc allocs.hexToBytes num = true

end

/-! ### One byte -/

theorem unsignedCharToHex_eq (c : UInt8) :
    unsignedCharToHex c = [hextable (c.toNat / 16), hextable (c.toNat % 16)] := by
  have hhigh : (c / 16).toNat = c.toNat / 16 := UInt8.toNat_div c 16
  have hlow : (c % 16).toNat = c.toNat % 16 := UInt8.toNat_mod c 16
  have hdigit : ∀ d : UInt8, d.toNat < 16 →
      (if d < 10 then d + 48 else d - 10 + 97) = hextable d.toNat := by
    intro d hd
    obtain ⟨n, hn, rfl⟩ : ∃ n < 16, d = UInt8.ofNat n := ⟨d.toNat, hd, UInt8.ofNat_toNat.symm⟩
    clear hd
    interval_cases n <;> decide
  have hc := c.toNat_lt
  rw [unsignedCharToHex, hdigit _ (by omega), hdigit _ (by omega), hhigh, hlow]

theorem hextable_ne_zero {n : Nat} (hn : n < 16) : hextable n ≠ 0 := by
  interval_cases n <;> decide

theorem takeWhile_hexstringSafe (src : Bytes) :
    (hexstringSafe src ++ [0]).takeWhile (fun c => decide (c ≠ 0)) = hexstringSafe src := by
  have hall : ∀ c ∈ hexstringSafe src, decide (c ≠ 0) = true := by
    intro c hc
    obtain ⟨n, hn, rfl⟩ := mem_hexstringSafe hc
    exact decide_eq_true (hextable_ne_zero hn)
  rw [List.takeWhile_append_of_pos hall]
  simp

/-! ### The codecs with their buffers -/

section
variable {allocs : Allocs} {src : Bytes}

theorem hexstringSafeIn_served (h : allocs.Serve src.length) :
    hexstringSafeIn allocs src = hexstringSafe src := if_pos h.hexstringSafe

theorem jsonHexstring_served (h : allocs.Serve src.length) :
    jsonHexstring allocs src = hexstringSafe src := if_pos h.jsonHexstring

theorem unsignedCharArrayToHexString_served (h : allocs.Serve src.length) :
    unsignedCharArrayToHexString allocs src = some (hexstringSafe src) := by
  have hdigits : src.flatMap unsignedCharToHex = hexstringSafe src :=
    List.flatMap_congr fun c _ => unsignedCharToHex_eq c
  rw [unsignedCharArrayToHexString, if_pos h.arrayToHex, hdigits, takeWhile_hexstringSafe]

theorem hexStringToBytesIn_served (heven : src.length % 2 = 0) (hne : src ≠ [])
    (h : allocs.Serve (src.length / 2)) : hexStringToBytesIn allocs src = some (hexPairs src) := by
  have hpos := List.length_pos_iff.mpr hne
  rw [hexStringToBytesIn, if_neg (by omega), if_neg (not_not.mpr h.hexToBytes)]

/-- The three encoders write the same text, also as the name of a directory; decoding it gives
the bytes back, and encoding what was decoded gives the digits in lower case. -/
theorem hex_codecs_agree {b s : Bytes} (hb : allocs.Serve b.length)
    (hs : allocs.Serve (s.length / 2)) (hhash : allocs.Serve hashLength) :
    (jsonHexstring allocs b = hexstringSafeIn allocs b ∧
      unsignedCharArrayToHexString allocs b = some (hexstringSafeIn allocs b) ∧
      ∀ dirPath hash, gPathWithHashIn allocs dirPath hash = some (gPathIn allocs dirPath hash)) ∧
    (b ≠ [] → hexStringToBytesIn allocs (hexstringSafeIn allocs b) = some b) ∧
    (s ≠ [] → s.length % 2 = 0 → (∀ c ∈ s, c ∈ hexDigits) →
      ∃ d, hexStringToBytesIn allocs s = some d ∧ hexstringSafeIn allocs d = s.map lowerDigit) := by
  refine ⟨⟨?_, ?_, fun dirPath hash => ?_⟩, fun hne => ?_, fun hne heven hdigits => ?_⟩
  · rw [jsonHexstring_served hb, hexstringSafeIn_served hb]
  · rw [unsignedCharArrayToHexString_served hb, hexstringSafeIn_served hb]
  · have hlen : allocs.Serve hash.val.length := by rwa [hash.property]
    rw [gPathWithHashIn, unsignedCharArrayToHexString_served hlen, gPathIn,
      hexstringSafeIn_served hlen]
    rfl
  · have hlen := length_hexstringSafe b
    have htext : hexstringSafe b ≠ [] := by
      intro hnil
      rw [hnil] at hlen
      exact hne (List.eq_nil_of_length_eq_zero (by simpa using hlen.symm))
    have hhalf : (hexstringSafe b).length / 2 = b.length := by omega
    rw [hexstringSafeIn_served hb, hexStringToBytesIn_served (by omega) htext (by rwa [hhalf]),
      hexPairs_hexstringSafe]
  · refine ⟨hexPairs s, hexStringToBytesIn_served heven hne hs, ?_⟩
    rw [hexstringSafeIn_served (by rwa [length_hexPairs]), hexstringSafe_hexPairs s heven hdigits]

theorem gPathWithHashIn_served (hhash : allocs.Serve hashLength) (dirPath : Bytes) (hash : Hash) :
    gPathWithHashIn allocs dirPath hash = some (getGPathWithHash dirPath hash) := by
  have hlen : allocs.Serve hash.val.length := by rwa [hash.property]
  have hslash : str "/" = [slash] := by decide
  rw [gPathWithHashIn, unsignedCharArrayToHexString_served hlen, Option.map_some, hslash,
    List.append_assoc]
  rfl

end

def served : Allocs := ⟨true, true, true, true⟩

theorem served_two : served.Serve 2 := ⟨by decide, by decide, by decide, by decide⟩

theorem hex_codecs_agree_two :
    (jsonHexstring served [0xAB, 0x0C] = hexstringSafeIn served [0xAB, 0x0C] ∧
      unsignedCharArrayToHexString served [0xAB, 0x0C] =
        some (hexstringSafeIn served [0xAB, 0x0C]) ∧
      ∀ dirPath hash, gPathWithHashIn served dirPath hash = some (gPathIn served dirPath hash)) ∧
    hexStringToBytesIn served (hexstringSafeIn served [0xAB, 0x0C]) = some [0xAB, 0x0C] ∧
    ∃ d, hexStringToBytesIn served (str "aB0C") = some d ∧
      hexstringSafeIn served d = (str "aB0C").map lowerDigit := by
  have hhash : served.Serve hashLength := ⟨by decide, by decide, by decide, by decide⟩
  obtain ⟨hencode, hdecode, hlower⟩ := hex_codecs_agree (b := [0xAB, 0x0C]) (s := str "aB0C")
    served_two served_two hhash
  exact ⟨hencode, hdecode (by decide), hlower (by decide) (by decide) (by decide +kernel)⟩

/-- A quarter of a gibibyte and one byte: no buffer of twice that length is ever there. -/
theorem large_array_not_encoded :
    ∃ b : Bytes, b ≠ [] ∧ ∀ allocs : Allocs,
      hexstringSafeIn allocs b = [] ∧ jsonHexstring allocs b = [] ∧
      unsignedCharArrayToHexString allocs b = none ∧
      hexStringToBytesIn allocs (hexstringSafeIn allocs b) = none := by
  obtain ⟨b, hb⟩ : ∃ b : Bytes, b.length = heapMaxSize / 2 + 1 :=
    ⟨List.replicate _ 0, List.length_replicate⟩
  have hheap : heapMaxSize / 2 + 1 = 268435457 := by decide
  have hrefused : ∀ (ok : Bool) (n : Nat), heapMaxSize < n → ¬ encMalloc ok n = true :=
    fun ok n hn h => absurd (encMalloc_le h) (Nat.not_le_of_lt hn)
  have htwice : heapMaxSize < b.length * 2 := by
    rw [hb, hheap]
    decide
  refine ⟨b, ?_, fun allocs => ?_⟩
  · rintro rfl
    rw [hheap] at hb
    cases hb
  · have hempty : hexstringSafeIn allocs b = [] := if_neg (hrefused _ _ htwice)
    refine ⟨hempty, if_neg (hrefused _ _ htwice), if_neg (hrefused _ _ (by omega)), ?_⟩
    rw [hempty]
    rfl

end CrustSworker.HexCodec

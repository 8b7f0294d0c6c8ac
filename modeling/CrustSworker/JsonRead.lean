import Mathlib.Data.List.TakeWhile
import CrustSworker.Metadata

/-!
# Reading back what was written

The enclave writes its documents by hand, one fragment after the other, and reads them with
the loader. A text is a token of a value when the loader, started in front of it, answers
the value and stops right behind the text. Strings, arrays and objects do so whatever
follows; a number does only when a separator or a closing bracket follows.

The fuel a token needs is twice its length, so a token may stand inside another one.
-/

namespace CrustSworker.JsonParse

open OrderedMap Metadata

/-! ### Hex text -/

theorem charToInt_hextable {n : Nat} (hn : n < 16) : charToInt (hextable n) = n := by
  interval_cases n <;> decide

theorem escapeChar_hextable {n : Nat} (hn : n < 16) : escapeChar (hextable n) = [hextable n] := by
  interval_cases n <;> decide

theorem hextable_ne_tag {n : Nat} (hn : n < 16) : hextable n ≠ 36 := by
  interval_cases n <;> decide

theorem hextable_kept {n : Nat} (hn : n < 16) :
    hextable n ≠ 10 ∧ hextable n ≠ 92 ∧ hextable n ≠ 32 := by
  interval_cases n <;> decide

theorem mem_hexstringSafe {c : UInt8} {s : Bytes} (h : c ∈ hexstringSafe s) :
    ∃ n, n < 16 ∧ c = hextable n := by
  obtain ⟨b, _, hc⟩ := List.mem_flatMap.mp h
  have hb := b.toNat_lt
  simp only [List.mem_cons, List.not_mem_nil, or_false] at hc
  rcases hc with hc | hc
  · exact ⟨b.toNat / 16, by omega, hc⟩
  · exact ⟨b.toNat % 16, by omega, hc⟩

theorem length_hexstringSafe (s : Bytes) : (hexstringSafe s).length = 2 * s.length := by
  induction s with
  | nil => rfl
  | cons b s ih =>
    rw [hexstringSafe_cons]
    simp only [List.length_cons, ih]
    omega

theorem hexPairs_hexstringSafe (s : Bytes) : hexPairs (hexstringSafe s) = s := by
  induction s with
  | nil => rfl
  | cons b s ih =>
    have hb := b.toNat_lt
    have hval : b.toNat / 16 * 16 + b.toNat % 16 = b.toNat := by omega
    rw [hexstringSafe_cons, hexPairs, ih, charToInt_hextable (by omega),
      charToInt_hextable (by omega), hval, UInt8.ofNat_toNat]

theorem hexStringToBytes_hexstringSafe {s : Bytes} (hs : s ≠ []) :
    hexStringToBytes (hexstringSafe s) = some s := by
  have hpos := List.length_pos_iff.mpr hs
  have hlen := length_hexstringSafe s
  rw [hexStringToBytes, if_neg (by omega), hexPairs_hexstringSafe]

/-! ### Strings -/

def NoEscape (s : Bytes) : Prop := ∀ c ∈ s, escapeChar c = [c]

def Untagged (s : Bytes) : Prop := s.take hashTag.length ≠ hashTag

instance (s : Bytes) : Decidable (NoEscape s) := List.decidableBAll _ s
instance (s : Bytes) : Decidable (Untagged s) := inferInstanceAs (Decidable (_ ≠ _))

theorem jsonEscape_of_noEscape {s : Bytes} (h : NoEscape s) : jsonEscape s = s := by
  induction s with
  | nil => rfl
  | cons c s ih =>
    rw [jsonEscape, List.flatMap_cons, h c List.mem_cons_self, ← jsonEscape,
      ih fun d hd => h d (List.mem_cons_of_mem _ hd)]
    rfl

theorem noEscape_append {s t : Bytes} (hs : NoEscape s) (ht : NoEscape t) : NoEscape (s ++ t) := by
  intro c hc
  rcases List.mem_append.mp hc with h | h
  · exact hs c h
  · exact ht c h

theorem noEscape_hexstringSafe (s : Bytes) : NoEscape (hexstringSafe s) := by
  intro c hc
  obtain ⟨n, hn, rfl⟩ := mem_hexstringSafe hc
  exact escapeChar_hextable hn

theorem untagged_hexstringSafe (s : Bytes) : Untagged (hexstringSafe s) := by
  intro h
  have hm : (36 : UInt8) ∈ hexstringSafe s := by
    refine List.mem_of_mem_take (i := hashTag.length) ?_
    rw [h]
    decide
  obtain ⟨n, hn, he⟩ := mem_hexstringSafe hm
  exact hextable_ne_tag hn he.symm

theorem noEscape_ne {c : UInt8} (h : escapeChar c = [c]) : c ≠ 34 ∧ c ≠ 92 := by
  refine ⟨?_, ?_⟩
  · rintro rfl
    exact absurd h (by decide)
  · rintro rfl
    exact absurd h (by decide)

theorem stringLoop_noEscape {s : Bytes} (hs : NoEscape s) (val rest : Bytes) :
    stringLoop (s ++ 34 :: rest) val = .ok (some (val ++ s), rest) := by
  induction s generalizing val with
  | nil =>
    rw [List.nil_append, List.append_nil, stringLoop.eq_def]
    dsimp only
    rw [if_pos rfl]
  | cons c s ih =>
    obtain ⟨h34, h92⟩ := noEscape_ne (hs c List.mem_cons_self)
    rw [List.cons_append, stringLoop.eq_def]
    dsimp only
    rw [if_neg h34, if_neg h92, ih fun d hd => hs d (List.mem_cons_of_mem _ hd)]
    simp

theorem stringValue_untagged (mem : Mem) {s : Bytes} (h : Untagged s) :
    stringValue mem s = .string s := by
  rw [stringValue, if_neg h]

theorem stringValue_tagged (mem : Mem) (h : Hash) :
    stringValue mem (hashTag ++ hexstringSafe h.val) = .hash h := by
  have htake : (hashTag ++ hexstringSafe h.val).take hashTag.length = hashTag := List.take_left
  have hdrop : (hashTag ++ hexstringSafe h.val).drop hashTag.length = hexstringSafe h.val :=
    List.drop_left
  rw [stringValue, if_pos htake, hdrop,
    hexStringToBytes_hexstringSafe (byteArr_ne_nil h (by decide))]
  exact congrArg JSON.hash (mem.read_full h)

/-! ### Tokens -/

def endsValue (c : UInt8) : Bool := decide (c = 44) || decide (c = 93) || decide (c = 125)

/-- The loader reads `text` as `j`, whatever follows. -/
def Reads (loader : Loader) (mem : Mem) (text : Bytes) (j : JSON) : Prop :=
  ∀ rest fuel, 2 * text.length ≤ fuel → parseNext loader mem fuel (text ++ rest) = .ok (j, rest)

/-- The loader reads `text` as `j` in front of a comma or a closing bracket, and the text
starts with something the loops do not take for the end of an empty container. -/
structure Token (loader : Loader) (mem : Mem) (text : Bytes) (j : JSON) : Prop where
  head : ∃ c t, text = c :: t ∧ isSpace c = false ∧ c ≠ 93 ∧ c ≠ 125
  read : ∀ c rest fuel, endsValue c = true → 2 * text.length ≤ fuel →
    parseNext loader mem fuel (text ++ c :: rest) = .ok (j, c :: rest)

section
variable {loader : Loader} {mem : Mem}

theorem consumeWs_cons {c : UInt8} (h : isSpace c = false) (t : Cursor) :
    consumeWs (c :: t) = .ok (c :: t) := by
  simp [consumeWs, h]

theorem isSpace_endsValue {c : UInt8} (h : endsValue c = true) : isSpace c = false := by
  simp only [endsValue, Bool.or_eq_true, decide_eq_true_eq] at h
  rcases h with (rfl | rfl) | rfl <;> decide

theorem Reads.token {text : Bytes} {j : JSON} (h : Reads loader mem text j) {c : UInt8} {t : Bytes}
    (ht : text = c :: t) (hs : isSpace c = false) (h93 : c ≠ 93) (h125 : c ≠ 125) :
    Token loader mem text j :=
  ⟨⟨c, t, ht, hs, h93, h125⟩, fun d rest fuel _ hf => h (d :: rest) fuel hf⟩

def quoted (s : Bytes) : Bytes := str "\"" ++ s ++ str "\""

theorem reads_quoted {s : Bytes} (hs : NoEscape s) :
    Reads loader mem (quoted s) (stringValue mem s) := by
  intro rest fuel hf
  obtain ⟨fuel, rfl⟩ : ∃ n, fuel = n + 1 := by
    refine ⟨fuel - 1, ?_⟩
    simp only [quoted, List.length_append] at hf
    have h1 : (str "\"").length = 1 := by decide
    omega
  have htext : quoted s ++ rest = 34 :: (s ++ 34 :: rest) := by
    simp [quoted, str]
    decide
  rw [htext, parseNext, consumeWs_cons (by decide)]
  dsimp only
  rw [if_neg (by decide), if_neg (by decide), if_pos rfl, parseString,
    stringLoop_noEscape hs [] rest]
  rfl

theorem token_quoted {s : Bytes} (hs : NoEscape s) :
    Token loader mem (quoted s) (stringValue mem s) :=
  (reads_quoted hs).token (c := 34) (t := s ++ str "\"") rfl (by decide) (by decide) (by decide)

/-! ### Numbers -/

theorem endsNumber_stops {c : UInt8} (h : endsNumber c = true) :
    ¬ (c = 45 ∨ IsDigit c) ∧ c ≠ 46 ∧ ¬ (c = 69 ∨ c = 101) := by
  simp only [endsNumber, isSpace, Bool.or_eq_true, Bool.and_eq_true, decide_eq_true_eq] at h
  unfold IsDigit
  rcases h with (((rfl | ⟨hlo, hhi⟩) | rfl) | rfl) | rfl
  · decide
  · grind
  · decide
  · decide
  · decide

theorem endsNumber_of_endsValue {c : UInt8} (h : endsValue c = true) : endsNumber c = true := by
  simp only [endsValue, Bool.or_eq_true, decide_eq_true_eq] at h
  rcases h with (rfl | rfl) | rfl <;> decide

theorem mantissa_digits {s : Bytes} (hs : ∀ c ∈ s, c = 45 ∨ IsDigit c) {c : UInt8}
    (hc : endsNumber c = true) (val rest : Bytes) (dbl : Bool) :
    mantissa (s ++ c :: rest) val dbl = .ok (val ++ s, dbl, c :: rest) := by
  induction s generalizing val with
  | nil =>
    obtain ⟨hdigit, hpoint, -⟩ := endsNumber_stops hc
    rw [List.nil_append, mantissa, if_neg hdigit, if_neg hpoint, List.append_nil]
  | cons d s ih =>
    rw [List.cons_append, mantissa, if_pos (hs d List.mem_cons_self),
      ih fun e he => hs e (List.mem_cons_of_mem _ he), List.append_assoc, List.singleton_append]

theorem digitsOf_decNat (n : Nat) : digitsOf (decNat n) = decNat n := by
  unfold digitsOf
  rw [List.takeWhile_eq_self_iff]
  intro c hc
  exact decide_eq_true (decNat_digits n c hc)

theorem decNat_ne_minus (n : Nat) (t : Bytes) : decNat n ≠ 45 :: t := by
  intro h
  have := decNat_digits n 45 (by rw [h]; exact List.mem_cons_self)
  exact absurd this (by decide)

theorem signed_decInt (n : Int) : signed (decInt n) = some n := by
  have hne := decNat_ne_nil n.natAbs
  unfold decInt
  split_ifs with hn
  · simp only [signed]
    rw [digitsOf_decNat, if_neg hne, decVal_decNat]
    congr 1
    omega
  · have hval : ((n.natAbs : Nat) : Int) = n := by omega
    unfold signed
    split
    · rename_i t ht
      exact absurd ht (decNat_ne_minus _ _)
    · rw [digitsOf_decNat, if_neg hne, decVal_decNat, hval]

theorem decInt_chars (n : Int) : ∀ c ∈ decInt n, c = 45 ∨ IsDigit c := by
  intro c hc
  unfold decInt at hc
  split_ifs at hc
  · rcases List.mem_cons.mp hc with h | h
    · exact .inl h
    · exact .inr (decNat_digits _ c h)
  · exact .inr (decNat_digits _ c hc)

theorem numeral_head {d : UInt8} (h : d = 45 ∨ IsDigit d) :
    isSpace d = false ∧ d ≠ 93 ∧ d ≠ 125 ∧ d ≠ 91 ∧ d ≠ 123 ∧ d ≠ 34 ∧
      ¬ (d = 116 ∨ d = 102) ∧ d ≠ 110 := by
  rcases h with rfl | ⟨hlo, hhi⟩
  · decide
  · rw [UInt8.le_iff_toNat_le] at hlo hhi
    have h48 : (48 : UInt8).toNat = 48 := rfl
    have h57 : (57 : UInt8).toNat = 57 := rfl
    obtain ⟨k, hk, hd⟩ : ∃ k, k < 10 ∧ d = UInt8.ofNat (48 + k) := by
      refine ⟨d.toNat - 48, by omega, ?_⟩
      rw [show 48 + (d.toNat - 48) = d.toNat by omega, UInt8.ofNat_toNat]
    subst hd
    clear hlo hhi
    interval_cases k <;> decide

theorem token_decInt {n : Int} (h₁ : -2 ^ 63 ≤ n) (h₂ : n < 2 ^ 63) :
    Token loader mem (decInt n) (.integral n) := by
  obtain ⟨d, t, hd⟩ := List.exists_cons_of_ne_nil (decInt_ne_nil n)
  have hdig : d = 45 ∨ IsDigit d := decInt_chars n d (by rw [hd]; exact List.mem_cons_self)
  obtain ⟨hsp, h93, h125, h91, h123, h34, htf, h110⟩ := numeral_head hdig
  refine ⟨⟨d, t, hd, hsp, h93, h125⟩, fun c rest fuel hc hf => ?_⟩
  obtain ⟨fuel, rfl⟩ : ∃ k, fuel = k + 1 := by
    refine ⟨fuel - 1, ?_⟩
    rw [hd, List.length_cons] at hf
    omega
  have hnum : parseNumber (decInt n ++ c :: rest) = .ok (.integral n, c :: rest) := by
    have hends := endsNumber_of_endsValue hc
    obtain ⟨-, -, hexp⟩ := endsNumber_stops hends
    rw [parseNumber, mantissa_digits (decInt_chars n) hends]
    dsimp only
    rw [if_neg hexp, if_pos hends, List.nil_append, numberValue, if_neg (by decide), stol,
      signed_decInt]
    dsimp only
    rw [if_pos ⟨h₁, h₂⟩]
    rfl
  rw [hd, List.cons_append] at hnum ⊢
  rw [parseNext, consumeWs_cons hsp]
  dsimp only
  rw [if_neg h91, if_neg h123, if_neg h34, if_neg htf, if_neg h110, if_pos hdig.symm, hnum]

/-! ### Arrays -/

theorem commaSep_cons (x y : Bytes) (xs : List Bytes) :
    commaSep (x :: y :: xs) = x ++ 44 :: commaSep (y :: xs) := by
  rw [commaSep, List.append_assoc]
  · rfl
  · simp

theorem commaSep_head {x : Bytes} {j : JSON} (h : Token loader mem x j) (xs : List Bytes) :
    ∃ c t, commaSep (x :: xs) = c :: t ∧ isSpace c = false ∧ c ≠ 93 ∧ c ≠ 125 := by
  obtain ⟨c, t, hx, hc⟩ := h.head
  cases xs with
  | nil => exact ⟨c, t, hx, hc⟩
  | cons y ys => exact ⟨c, t ++ 44 :: commaSep (y :: ys), by rw [commaSep_cons, hx]; rfl, hc⟩

section
variable {α : Type} {text : α → Bytes} {value : α → JSON}

theorem arrayLoop_tokens {x : α} {xs : List α}
    (h : ∀ y ∈ x :: xs, Token loader mem (text y) (value y)) (items : List JSON) (rest : Bytes)
    {fuel : Nat} (hf : 2 * (commaSep ((x :: xs).map text)).length + 1 ≤ fuel) :
    arrayLoop loader mem fuel items (commaSep ((x :: xs).map text) ++ 93 :: rest) =
      .ok (.array (items ++ (x :: xs).map value), rest) := by
  induction xs generalizing x items fuel with
  | nil =>
    obtain ⟨fuel, rfl⟩ : ∃ k, fuel = k + 1 := ⟨fuel - 1, by omega⟩
    have hread := (h x List.mem_cons_self).read 93 rest fuel (by decide) (by
      simp only [List.map_cons, List.map_nil, commaSep] at hf
      omega)
    simp only [List.map_cons, List.map_nil, commaSep]
    rw [arrayLoop, hread]
    dsimp only
    rw [consumeWs_cons (by decide)]
    dsimp only
    rw [List.head?_cons, if_neg (by simp), if_pos rfl]
    rfl
  | cons y ys ih =>
    obtain ⟨fuel, rfl⟩ : ∃ k, fuel = k + 1 := ⟨fuel - 1, by omega⟩
    simp only [List.map_cons] at hf ⊢
    rw [commaSep_cons] at hf ⊢
    simp only [List.length_append, List.length_cons] at hf
    have hread := (h x List.mem_cons_self).read 44
      (commaSep (text y :: ys.map text) ++ 93 :: rest) fuel (by decide) (by omega)
    rw [List.append_assoc, List.cons_append, arrayLoop, hread]
    dsimp only
    rw [consumeWs_cons (by decide)]
    dsimp only
    rw [List.head?_cons, if_pos rfl]
    have hfuel : 2 * (commaSep ((y :: ys).map text)).length + 1 ≤ fuel := by
      simp only [List.map_cons]
      omega
    have htail := ih (fun z hz => h z (List.mem_cons_of_mem _ hz)) (items ++ [value x]) hfuel
    simp only [List.map_cons] at htail
    rw [List.tail_cons, htail, List.append_assoc]
    rfl

theorem reads_array {xs : List α} (h : ∀ y ∈ xs, Token loader mem (text y) (value y)) :
    Reads loader mem (str "[" ++ commaSep (xs.map text) ++ str "]") (.array (xs.map value)) := by
  intro rest fuel hf
  have hopen : ∀ t : Bytes, str "[" ++ t = 91 :: t := fun _ => rfl
  have hclose : str "]" ++ rest = 93 :: rest := rfl
  simp only [List.length_append, show (str "[").length = 1 by decide,
    show (str "]").length = 1 by decide] at hf
  obtain ⟨fuel, rfl⟩ : ∃ k, fuel = k + 1 := ⟨fuel - 1, by omega⟩
  rw [List.append_assoc, List.append_assoc, hopen, hclose, parseNext, consumeWs_cons (by decide)]
  dsimp only
  rw [if_pos rfl]
  cases xs with
  | nil =>
    simp only [List.map_nil, commaSep, List.nil_append]
    rw [consumeWs_cons (by decide)]
    rfl
  | cons x xs =>
    obtain ⟨c, t, hc, hsp, h93, -⟩ := commaSep_head (h x List.mem_cons_self) (xs.map text)
    have hfuel : 2 * (commaSep ((x :: xs).map text)).length + 1 ≤ fuel := by omega
    have hloop := arrayLoop_tokens h [] rest hfuel
    simp only [List.map_cons] at hloop ⊢
    rw [hc, List.cons_append] at hloop ⊢
    rw [consumeWs_cons hsp]
    dsimp only
    rw [if_neg (by simpa using h93), hloop]
    rfl

theorem token_array {xs : List α} (h : ∀ y ∈ xs, Token loader mem (text y) (value y)) :
    Token loader mem (str "[" ++ commaSep (xs.map text) ++ str "]") (.array (xs.map value)) :=
  (reads_array h).token (c := 91) (t := commaSep (xs.map text) ++ str "]") rfl (by decide)
    (by decide) (by decide)

/-! ### Objects -/

variable {key : α → Bytes}

def member (k text : Bytes) : Bytes := quoted k ++ str ":" ++ text

def objectOf (fields : List (Bytes × JSON)) : JSON :=
  fields.foldl (fun obj p => obj.put p.1 p.2) (.object [])

theorem token_member_head (k t : Bytes) :
    ∃ c u, member k t = c :: u ∧ isSpace c = false ∧ c ≠ 93 ∧ c ≠ 125 :=
  ⟨34, k ++ str "\"" ++ str ":" ++ t, by simp [member, quoted]; rfl, by decide, by decide, by decide⟩

theorem objectLoop_member {k t : Bytes} {j : JSON} (hk : NoEscape k) (hu : Untagged k)
    (ht : Token loader mem t j) {c : UInt8} (hc : endsValue c = true) (obj : JSON) (rest : Bytes)
    {fuel : Nat} (hf : 2 * (member k t).length ≤ fuel) :
    objectLoop loader mem (fuel + 1) obj (member k t ++ c :: rest) =
      if c = 44 then objectLoop loader mem fuel (obj.put k j) rest
      else if c = 125 then .ok (obj.put k j, rest)
      else .ok (obj.put k j, c :: rest) := by
  have hsplit : member k t ++ c :: rest = quoted k ++ 58 :: (t ++ c :: rest) := by
    simp only [member, List.append_assoc]
    rfl
  have hlen : (member k t).length = (quoted k).length + 1 + t.length := by
    simp only [member, List.length_append]
    rfl
  obtain ⟨d, u, hd, hsp, -, -⟩ := ht.head
  rw [hsplit, objectLoop, reads_quoted hk (58 :: (t ++ c :: rest)) fuel (by omega)]
  dsimp only
  rw [consumeWs_cons (by decide)]
  dsimp only
  rw [List.head?_cons, if_pos rfl, List.tail_cons]
  have hws : consumeWs (t ++ c :: rest) = .ok (t ++ c :: rest) := by
    rw [hd, List.cons_append, consumeWs_cons hsp]
  rw [hws]
  dsimp only
  rw [ht.read c rest fuel hc (by omega)]
  dsimp only
  rw [consumeWs_cons (isSpace_endsValue hc), stringValue_untagged mem hu]
  simp only [JSON.toStr, jsonEscape_of_noEscape hk, List.head?_cons, Option.some.injEq,
    List.tail_cons]

theorem objectLoop_members {x : α} {xs : List α} (hk : ∀ y ∈ x :: xs, NoEscape (key y))
    (hu : ∀ y ∈ x :: xs, Untagged (key y))
    (h : ∀ y ∈ x :: xs, Token loader mem (text y) (value y)) (obj : JSON) (rest : Bytes)
    {fuel : Nat}
    (hf : 2 * (commaSep ((x :: xs).map fun y => member (key y) (text y))).length + 1 ≤ fuel) :
    objectLoop loader mem fuel obj
        (commaSep ((x :: xs).map fun y => member (key y) (text y)) ++ 125 :: rest) =
      .ok ((x :: xs).foldl (fun obj y => obj.put (key y) (value y)) obj, rest) := by
  induction xs generalizing x obj fuel with
  | nil =>
    obtain ⟨fuel, rfl⟩ : ∃ k, fuel = k + 1 := ⟨fuel - 1, by omega⟩
    simp only [List.map_cons, List.map_nil, commaSep] at hf ⊢
    rw [objectLoop_member (hk x List.mem_cons_self) (hu x List.mem_cons_self)
      (h x List.mem_cons_self) (by decide) obj rest (by omega), if_neg (by decide), if_pos rfl]
    rfl
  | cons y ys ih =>
    obtain ⟨fuel, rfl⟩ : ∃ k, fuel = k + 1 := ⟨fuel - 1, by omega⟩
    simp only [List.map_cons] at hf ⊢
    rw [commaSep_cons] at hf ⊢
    simp only [List.length_append, List.length_cons] at hf
    rw [List.append_assoc, List.cons_append,
      objectLoop_member (hk x List.mem_cons_self) (hu x List.mem_cons_self)
        (h x List.mem_cons_self) (by decide) obj _ (by omega), if_pos rfl]
    have hfuel : 2 * (commaSep ((y :: ys).map fun z => member (key z) (text z))).length + 1 ≤
        fuel := by
      simp only [List.map_cons]
      omega
    have htail := ih (fun z hz => hk z (List.mem_cons_of_mem _ hz))
      (fun z hz => hu z (List.mem_cons_of_mem _ hz)) (fun z hz => h z (List.mem_cons_of_mem _ hz))
      (obj.put (key x) (value x)) hfuel
    simp only [List.map_cons] at htail
    rw [htail]
    rfl

theorem reads_object {xs : List α} (hk : ∀ y ∈ xs, NoEscape (key y))
    (hu : ∀ y ∈ xs, Untagged (key y)) (h : ∀ y ∈ xs, Token loader mem (text y) (value y)) :
    Reads loader mem
      (str "\x7b" ++ commaSep (xs.map fun y => member (key y) (text y)) ++ str "\x7d")
      (objectOf (xs.map fun y => (key y, value y))) := by
  intro rest fuel hf
  have hopen : ∀ t : Bytes, str "\x7b" ++ t = 123 :: t := fun _ => rfl
  have hclose : str "\x7d" ++ rest = 125 :: rest := rfl
  simp only [List.length_append, show (str "\x7b").length = 1 by decide,
    show (str "\x7d").length = 1 by decide] at hf
  obtain ⟨fuel, rfl⟩ : ∃ k, fuel = k + 1 := ⟨fuel - 1, by omega⟩
  rw [List.append_assoc, List.append_assoc, hopen, hclose, parseNext, consumeWs_cons (by decide)]
  dsimp only
  rw [if_neg (by decide), if_pos rfl, objectOf, List.foldl_map]
  cases xs with
  | nil =>
    simp only [List.map_nil, commaSep, List.nil_append]
    rw [consumeWs_cons (by decide)]
    rfl
  | cons x xs =>
    have hhead : ∃ c t, commaSep ((x :: xs).map fun y => member (key y) (text y)) = c :: t ∧
        isSpace c = false ∧ c ≠ 125 := by
      obtain ⟨c, u, hc, hsp, -, h125⟩ := token_member_head (key x) (text x)
      cases xs with
      | nil => exact ⟨c, u, hc, hsp, h125⟩
      | cons y ys =>
        refine ⟨c, u ++ 44 :: commaSep ((y :: ys).map fun z => member (key z) (text z)), ?_, hsp,
          h125⟩
        simp only [List.map_cons]
        rw [commaSep_cons, hc]
        rfl
    obtain ⟨c, t, hc, hsp, h125⟩ := hhead
    have hfuel : 2 * (commaSep ((x :: xs).map fun y => member (key y) (text y))).length + 1 ≤
        fuel := by omega
    have hloop := objectLoop_members hk hu h (.object []) rest hfuel
    rw [hc, List.cons_append] at hloop ⊢
    rw [consumeWs_cons hsp]
    dsimp only
    rw [if_neg (by simpa using h125), hloop]

theorem Reads.spaced {k t : Bytes} {j : JSON} (hk : NoEscape k)
    (h : Reads loader mem (str "\x7b" ++ (quoted k ++ str ":" ++ t)) j) :
    Reads loader mem (str "\x7b" ++ (quoted k ++ str ": " ++ t)) j := by
  intro rest fuel hf
  have hlen : (str "\x7b" ++ (quoted k ++ str ": " ++ t)).length =
      (quoted k).length + t.length + 3 := by
    simp only [List.length_append, show (str "\x7b").length = 1 by decide,
      show (str ": ").length = 2 by decide]
    omega
  have hread := h rest fuel (by
    simp only [List.length_append, show (str "\x7b").length = 1 by decide,
      show (str ":").length = 1 by decide]
    omega)
  obtain ⟨fuel, rfl⟩ : ∃ n, fuel = n + 1 + 1 := ⟨fuel - 2, by omega⟩
  have hopen : ∀ u : Bytes, parseNext loader mem (fuel + 1 + 1) (123 :: (quoted k ++ u)) =
      objectLoop loader mem (fuel + 1) (.object []) (quoted k ++ u) := by
    intro u
    have hhead : quoted k ++ u = 34 :: (k ++ str "\"" ++ u) := rfl
    rw [parseNext, consumeWs_cons (by decide)]
    dsimp only
    rw [if_neg (by decide), if_pos rfl, hhead, consumeWs_cons (by decide)]
    rfl
  have hloop : ∀ u : Bytes, objectLoop loader mem (fuel + 1) (.object []) (quoted k ++ 58 :: 32 :: u) =
      objectLoop loader mem (fuel + 1) (.object []) (quoted k ++ 58 :: u) := by
    intro u
    rw [objectLoop, objectLoop, reads_quoted hk _ fuel (by omega), reads_quoted hk _ fuel (by omega)]
    rfl
  have hplain : str "\x7b" ++ (quoted k ++ str ":" ++ t) ++ rest =
      123 :: (quoted k ++ 58 :: (t ++ rest)) := by
    simp only [List.append_assoc]
    rfl
  have hspaced : str "\x7b" ++ (quoted k ++ str ": " ++ t) ++ rest =
      123 :: (quoted k ++ 58 :: 32 :: (t ++ rest)) := by
    simp only [List.append_assoc]
    rfl
  rw [hspaced, hopen, hloop, ← hopen, ← hplain, hread]

theorem token_object {xs : List α} (hk : ∀ y ∈ xs, NoEscape (key y))
    (hu : ∀ y ∈ xs, Untagged (key y)) (h : ∀ y ∈ xs, Token loader mem (text y) (value y)) :
    Token loader mem
      (str "\x7b" ++ commaSep (xs.map fun y => member (key y) (text y)) ++ str "\x7d")
      (objectOf (xs.map fun y => (key y, value y))) :=
  (reads_object hk hu h).token (c := 123)
    (t := commaSep (xs.map fun y => member (key y) (text y)) ++ str "\x7d") rfl (by decide)
    (by decide) (by decide)

end

/-! ### The fields of what was read -/

theorem objectOf_append (fields : List (Bytes × JSON)) (p : Bytes × JSON) :
    objectOf (fields ++ [p]) = (objectOf fields).put p.1 p.2 := by
  rw [objectOf, List.foldl_append]
  rfl

theorem objectOf_sorted {fields : List (Bytes × JSON)} (h : Sorted ltBytes fields) :
    objectOf fields = .object fields := by
  have hgo : ∀ (done fields : List (Bytes × JSON)), Sorted ltBytes (done ++ fields) →
      fields.foldl (fun (obj : JSON) p => obj.put p.1 p.2) (.object done) =
        .object (done ++ fields) := by
    intro done fields hs
    induction fields generalizing done with
    | nil => simp
    | cons p fields ih =>
      have hlast : insertKey ltBytes p.1 p.2 done = done ++ [p] := by
        refine insertKey_last isOrder_ltBytes fun q hq => ?_
        exact (List.pairwise_append.mp hs).2.2 q hq p List.mem_cons_self
      have hput : (JSON.object done).put p.1 p.2 = .object (done ++ [p]) :=
        congrArg JSON.object hlast
      rw [List.foldl_cons, hput, ih (done ++ [p]) (by simpa using hs)]
      simp
  exact hgo [] fields h

theorem isObject_objectOf (fields : List (Bytes × JSON)) : isObject (objectOf fields) = true := by
  induction fields using List.reverseRecOn with
  | nil => rfl
  | append_singleton fields p ih =>
    rw [objectOf_append]
    cases objectOf fields <;> rfl

theorem get_objectOf {fields : List (Bytes × JSON)} (hnd : (fields.map Prod.fst).Nodup)
    {k : Bytes} {v : JSON} (h : (k, v) ∈ fields) : (objectOf fields).get k = v := by
  induction fields using List.reverseRecOn with
  | nil => cases h
  | append_singleton fields p ih =>
    rw [List.map_append, List.nodup_append] at hnd
    rw [objectOf_append]
    rcases List.mem_append.mp h with h | h
    · have hne : k ≠ p.1 :=
        hnd.2.2 k (List.mem_map.mpr ⟨(k, v), h, rfl⟩) p.1 (by simp)
      rw [JSON.get_put_ne _ hne]
      exact ih hnd.1 h
    · rw [← List.mem_singleton.mp h, JSON.get_put_self]

theorem hasKey_objectOf (fields : List (Bytes × JSON)) (k : Bytes) :
    (objectOf fields).hasKey k = true ↔ k ∈ fields.map Prod.fst := by
  induction fields using List.reverseRecOn with
  | nil => simp [objectOf, JSON.hasKey, findKey]
  | append_singleton fields p ih =>
    rw [objectOf_append, List.map_append, List.mem_append, ← ih]
    have hobj := isObject_objectOf fields
    cases hm : objectOf fields with
    | object m =>
      by_cases hk : k = p.1
      · simp [JSON.put, JSON.hasKey, hk]
      · simp [JSON.put, JSON.hasKey, findKey_insertKey_ne ltBytes hk, hk]
    | _ => rw [hm] at hobj; cases hobj

/-! ### Documents -/

structure Field where
  key : Bytes
  text : Bytes
  value : JSON

def documentText (fields : List Field) : Bytes :=
  str "\x7b" ++ commaSep (fields.map fun f => member f.key f.text) ++ str "\x7d"

def documentOf (fields : List Field) : JSON := objectOf (fields.map fun f => (f.key, f.value))

theorem reads_document {fields : List Field}
    (hk : ∀ k ∈ fields.map Field.key, NoEscape k ∧ Untagged k)
    (h : ∀ f ∈ fields, Token loader mem f.text f.value) :
    Reads loader mem (documentText fields) (documentOf fields) :=
  reads_object (fun f hf => (hk f.key (List.mem_map_of_mem hf)).1)
    (fun f hf => (hk f.key (List.mem_map_of_mem hf)).2) h

theorem map_fst_fields (fields : List Field) :
    (fields.map fun f => (f.key, f.value)).map Prod.fst = fields.map Field.key := by
  rw [List.map_map]
  rfl

theorem documentOf_get {fields : List Field} (hnd : (fields.map Field.key).Nodup) {f : Field}
    (hf : f ∈ fields) : (documentOf fields).get f.key = f.value := by
  refine get_objectOf ?_ (List.mem_map.mpr ⟨f, hf, rfl⟩)
  rwa [map_fst_fields]

theorem documentOf_hasKey (fields : List Field) (k : Bytes) :
    (documentOf fields).hasKey k = true ↔ k ∈ fields.map Field.key := by
  rw [documentOf, hasKey_objectOf, map_fst_fields]

theorem load_of_reads {text : Bytes} {j : JSON} (h : Reads .text mem text j) (hne : text ≠ []) :
    load mem text = .ok j := by
  have hread := h [0] (fuelFor (text ++ [0])) (by
    simp only [fuelFor, List.length_append]
    omega)
  rw [load, if_neg (mt List.length_eq_zero_iff.mp hne), hread]
  rfl

theorem loadBuffer_of_reads {text : Bytes} {j : JSON} (h : Reads .buffer mem text j) (rest : Bytes)
    {size : Nat} (hsize : size ≠ 0) : loadBuffer mem (text ++ rest) size = .ok j := by
  have hread := h rest (fuelFor (text ++ rest)) (by
    simp only [fuelFor, List.length_append]
    omega)
  rw [loadBuffer, if_neg hsize, hread]
  rfl

end

end CrustSworker.JsonParse

import CrustSworker.JsonDump
import CrustSworker.JsonLoaders

/-!
# Documents with their layout

`dump` breaks an object into lines and escapes its strings; its keys it writes as they are. A key
is escaped when it is read, so what is written between its quotes reads as itself. Every document
that the loader makes of a text comes back from its own dump, whatever its strings hold, unless it
holds a double or a text that still carries the mark of a hash.
-/

namespace CrustSworker.JsonParse

open OrderedMap Metadata JsonLoaders

/-! ### Escaped strings -/

theorem escapeChar_cases (c : UInt8) :
    (escapeChar c = [c] ∧ c ≠ 34 ∧ c ≠ 92) ∨
      ∃ e, escapeChar c = [92, e] ∧ e ≠ 117 ∧ unescape e = c := by
  unfold escapeChar
  split_ifs with h34 h92 h8 h12 h10 h13 h9
  · exact .inr ⟨34, rfl, by decide, h34.symm⟩
  · exact .inr ⟨92, rfl, by decide, h92.symm⟩
  · exact .inr ⟨98, rfl, by decide, h8.symm⟩
  · exact .inr ⟨102, rfl, by decide, h12.symm⟩
  · exact .inr ⟨110, rfl, by decide, h10.symm⟩
  · exact .inr ⟨114, rfl, by decide, h13.symm⟩
  · exact .inr ⟨116, rfl, by decide, h9.symm⟩
  · exact .inl ⟨rfl, h34, h92⟩

theorem stringLoop_escape (s val rest : Bytes) :
    stringLoop (jsonEscape s ++ 34 :: rest) val = .ok (some (val ++ s), rest) := by
  induction s generalizing val with
  | nil =>
    rw [List.append_nil, stringLoop.eq_def]
    rfl
  | cons c s ih =>
    have hcons : jsonEscape (c :: s) ++ 34 :: rest =
        escapeChar c ++ (jsonEscape s ++ 34 :: rest) := by
      rw [jsonEscape, List.flatMap_cons, List.append_assoc]
      rfl
    have hval : val ++ c :: s = val ++ [c] ++ s := by simp
    rw [hcons, hval, ← ih (val ++ [c])]
    rcases escapeChar_cases c with ⟨hc, h34, h92⟩ | ⟨e, hc, he, hback⟩
    · rw [hc, List.singleton_append, stringLoop.eq_def]
      dsimp only
      rw [if_neg h34, if_neg h92]
    · rw [hc, List.cons_append, List.singleton_append, stringLoop.eq_def]
      dsimp only
      rw [if_neg (by decide), if_pos rfl, if_neg he, hback]

section
variable {loader : Loader} {mem : Mem}

theorem reads_escaped (s : Bytes) :
    Reads loader mem (quoted (jsonEscape s)) (stringValue mem s) := by
  intro rest fuel hf
  have hlen : 0 < (quoted (jsonEscape s)).length := Nat.succ_pos _
  obtain ⟨fuel, rfl⟩ : ∃ n, fuel = n + 1 := ⟨fuel - 1, by omega⟩
  rw [quoted_append, parseNext, consumeWs_cons (by decide)]
  dsimp only
  rw [if_neg (by decide), if_neg (by decide), if_pos rfl, parseString,
    stringLoop_escape s [] rest]
  rfl

end

/-! ### What the loader makes -/

inductive Loaded : JSON → Prop
  | null : Loaded .null
  | boolean (b : Bool) : Loaded (.boolean b)
  | integral {n : Int} (long : IsLong n) : Loaded (.integral n)
  | floating (val exp : Bytes) : Loaded (.floating val exp)
  | hash (h : Hash) : Loaded (.hash h)
  | string (s : Bytes) : Loaded (.string s)
  | array {items : List JSON} (values : ∀ j ∈ items, Loaded j) : Loaded (.array items)
  | object {fields : List (Bytes × JSON)} (sorted : Sorted ltBytes fields)
      (keys : ∀ p ∈ fields, ∃ k, p.1 = jsonEscape k) (values : ∀ p ∈ fields, Loaded p.2) :
      Loaded (.object fields)

inductive Plain : JSON → Prop
  | null : Plain .null
  | boolean (b : Bool) : Plain (.boolean b)
  | integral (n : Int) : Plain (.integral n)
  | hash (h : Hash) : Plain (.hash h)
  | string {s : Bytes} (untagged : Untagged s) : Plain (.string s)
  | array {items : List JSON} (values : ∀ j ∈ items, Plain j) : Plain (.array items)
  | object {fields : List (Bytes × JSON)} (keys : ∀ p ∈ fields, Untagged p.1)
      (values : ∀ p ∈ fields, Plain p.2) : Plain (.object fields)

theorem toStr_escaped (j : JSON) : ∃ k, j.toStr = jsonEscape k := by
  cases j with
  | string s => exact ⟨s, rfl⟩
  | hash h => exact ⟨hexstringSafe h.val, (jsonEscape_of_noEscape (noEscape_hexstringSafe _)).symm⟩
  | integral n =>
    refine ⟨decInt n, (jsonEscape_of_noEscape fun c hc => ?_).symm⟩
    rcases decInt_chars n c hc with rfl | hdigit
    · decide
    · have hhead := numeral_head (.inr hdigit)
      unfold IsDigit at hdigit
      unfold escapeChar
      grind
  | _ => exact ⟨[], rfl⟩

theorem Loaded.put {obj v : JSON} (hobj : Loaded obj) {key : Bytes} (hkey : ∃ k, key = jsonEscape k)
    (hv : Loaded v) : Loaded (obj.put key v) := by
  have hone : Loaded (.object [(key, v)]) := by
    refine .object (List.pairwise_singleton _ _) (fun p hp => ?_) fun p hp => ?_
    · rw [List.mem_singleton.mp hp]
      exact hkey
    · rw [List.mem_singleton.mp hp]
      exact hv
  cases hobj with
  | object sorted keys values =>
    refine .object (sorted.insertKey isOrder_ltBytes key v) (fun p hp => ?_) fun p hp => ?_
    · rcases mem_insertKey hp with rfl | hp
      · exact hkey
      · exact keys p hp
    · rcases mem_insertKey hp with rfl | hp
      · exact hv
      · exact values p hp
  | _ => exact hone

theorem Loaded.get {j : JSON} (h : Loaded j) (key : Bytes) : Loaded (j.get key) := by
  cases h with
  | @object fields sorted keys values =>
    rw [JSON.get]
    cases hf : findKey key fields with
    | none => exact .null
    | some v => exact values (key, v) (mem_of_findKey hf)
  | _ => exact .null

theorem Loaded.toInt_long {j : JSON} (h : Loaded j) : IsLong j.toInt := by
  have hzero : IsLong 0 := by decide
  cases h with
  | integral long => exact long
  | _ => exact hzero

theorem Plain.put {obj v : JSON} (hobj : Plain obj) {key : Bytes} (hkey : Untagged key)
    (hv : Plain v) : Plain (obj.put key v) := by
  have hone : Plain (.object [(key, v)]) := by
    refine .object (fun p hp => ?_) fun p hp => ?_
    · rw [List.mem_singleton.mp hp]
      exact hkey
    · rw [List.mem_singleton.mp hp]
      exact hv
  cases hobj with
  | object keys values =>
    refine .object (fun p hp => ?_) fun p hp => ?_
    · rcases mem_insertKey hp with rfl | hp
      · exact hkey
      · exact keys p hp
    · rcases mem_insertKey hp with rfl | hp
      · exact hv
      · exact values p hp
  | _ => exact hone

/-- Like every function of the loader, it leaves nothing behind but such values. -/
def Makes (r : Parsed JSON) : Prop := ∀ j t, r = .ok (j, t) → Loaded j

section
variable {mem : Mem}

theorem makes_ok {j : JSON} {t : Cursor} (h : Loaded j) : Makes (.ok (j, t)) := by
  intro k u hk
  cases hk
  exact h

theorem makes_error (f : Fault) : Makes (.error f) := nofun

theorem stringValue_loaded (s : Bytes) : Loaded (stringValue mem s) := by
  unfold stringValue
  split_ifs
  · cases hexStringToBytes (s.drop hashTag.length) with
    | none => exact .string _
    | some p => exact .hash _
  · exact .string _

theorem parseString_makes (s : Cursor) : Makes (parseString mem s) := by
  unfold parseString
  split
  · exact makes_error _
  · exact makes_ok (.string _)
  · exact makes_ok (stringValue_loaded _)

theorem stol_long {s : Bytes} {v : Int} (h : stol s = some v) : IsLong v := by
  unfold stol at h
  split at h
  · cases h
  · split_ifs at h with hlong
    cases h
    exact hlong

theorem numberValue_makes (val ex : Bytes) (dbl : Bool) (s : Cursor) :
    Makes ((numberValue val ex dbl).map fun v => (v, s)) := by
  unfold numberValue
  cases dbl with
  | true =>
    simp only [↓reduceIte]
    split_ifs
    · exact makes_ok (.floating _ _)
    · exact makes_error _
  | false =>
    simp only [Bool.false_eq_true, ↓reduceIte]
    cases hv : stol val with
    | none => exact makes_error _
    | some v =>
      dsimp only
      split_ifs
      · exact makes_ok (.integral (stol_long hv))
      · exact makes_ok (.floating _ _)

theorem parseNumber_makes (s : Cursor) : Makes (parseNumber s) := by
  unfold parseNumber
  split
  · exact makes_error _
  · exact makes_error _
  · split_ifs
    · split
      · exact makes_error _
      · exact makes_ok .null
      · split
        · exact makes_error _
        · exact numberValue_makes _ _ _ _
    · exact numberValue_makes _ _ _ _
    · exact makes_ok .null

theorem parseBool_makes (loader : Loader) (s : Cursor) : Makes (parseBool loader s) := by
  unfold parseBool
  split
  · exact makes_error _
  · exact makes_ok (.boolean _)
  · split
    · exact makes_error _
    · exact makes_ok (.boolean _)
    · exact makes_ok .null

theorem parseNull_makes (loader : Loader) (s : Cursor) : Makes (parseNull loader s) := by
  unfold parseNull
  split
  · exact makes_error _
  · cases loader with
    | text => exact makes_ok .null
    | buffer => exact makes_ok .null

/-- The three loops at once, by induction on the fuel. -/
theorem parse_makes (loader : Loader) (mem : Mem) (fuel : Nat) :
    (∀ s, Makes (parseNext loader mem fuel s)) ∧
    (∀ s obj, Loaded obj → Makes (objectLoop loader mem fuel obj s)) ∧
    (∀ s items, (∀ j ∈ items, Loaded j) → Makes (arrayLoop loader mem fuel items s)) := by
  induction fuel with
  | zero => exact ⟨fun _ => makes_error _, fun _ _ _ => makes_error _, fun _ _ _ => makes_error _⟩
  | succ fuel ih =>
    obtain ⟨next, objects, arrays⟩ := ih
    have hnone : Loaded (.object []) :=
      .object (sorted_nil _) (List.forall_mem_nil _) (List.forall_mem_nil _)
    refine ⟨fun s => ?_, fun s obj hobj => ?_, fun s items hitems => ?_⟩
    · unfold parseNext
      split
      · exact makes_error _
      · exact makes_error _
      · split_ifs
        · split
          · exact makes_error _
          · split_ifs
            · exact makes_ok (.array (List.forall_mem_nil _))
            · exact arrays _ _ (List.forall_mem_nil _)
        · split
          · exact makes_error _
          · split_ifs
            · exact makes_ok hnone
            · exact objects _ _ hnone
        · exact parseString_makes _
        · exact parseBool_makes loader _
        · exact parseNull_makes loader _
        · exact parseNumber_makes _
        · exact makes_ok .null
    · unfold objectLoop
      split
      · exact makes_error _
      · split
        · exact makes_error _
        · split_ifs
          · split
            · exact makes_error _
            · split
              · exact makes_error _
              · rename_i value u hvalue
                have hput := fun key => hobj.put (toStr_escaped key) (next _ _ _ hvalue)
                split
                · exact makes_error _
                · dsimp only
                  split_ifs
                  · exact objects _ _ (hput _)
                  · exact makes_ok (hput _)
                  · exact makes_ok (hput _)
          · exact makes_ok hobj
    · unfold arrayLoop
      split
      · exact makes_error _
      · rename_i item u hitem
        have hall : ∀ j ∈ items ++ [item], Loaded j := by
          intro j hj
          rcases List.mem_append.mp hj with hj | hj
          · exact hitems j hj
          · rw [List.mem_singleton.mp hj]
            exact next _ _ _ hitem
        split
        · exact makes_error _
        · dsimp only
          split_ifs
          · exact arrays _ _ hall
          · exact makes_ok (.array hall)
          · exact makes_ok (.array (List.forall_mem_nil _))

theorem load_loaded {text : Bytes} {j : JSON} (h : load mem text = .ok j) : Loaded j := by
  unfold load at h
  split_ifs at h
  · cases h
    exact .null
  · cases hp : parseNext .text mem (fuelFor (text ++ [0])) (text ++ [0]) with
    | error f =>
      rw [hp] at h
      cases h
    | ok r =>
      rw [hp] at h
      cases h
      exact (parse_makes .text mem _).1 _ _ _ hp

end

/-! ### Reading a dump -/

/-- The loader reads `text` as `j` in front of anything that ends a number, layout included, and
the text does not start like the end of a container. -/
structure Laid (mem : Mem) (text : Bytes) (j : JSON) : Prop where
  head : ∃ c t, text = c :: t ∧ isSpace c = false ∧ c ≠ 93 ∧ c ≠ 125
  read : ∀ rest fuel, Delimited rest → 2 * text.length ≤ fuel →
    parseNext .text mem fuel (text ++ rest) = .ok (j, rest)

section
variable {mem : Mem}

theorem Reads.laid {text : Bytes} {j : JSON} (h : Reads .text mem text j) {c : UInt8} {t : Bytes}
    (ht : text = c :: t) (hc : isSpace c = false ∧ c ≠ 93 ∧ c ≠ 125) : Laid mem text j :=
  ⟨⟨c, t, ht, hc⟩, fun rest fuel _ hf => h rest fuel hf⟩

theorem blank_spaces (n : Nat) : Blank (List.replicate n 32) := by
  intro c hc
  rw [(List.mem_replicate.mp hc).2]
  decide

theorem blank_pad (depth : Nat) : Blank (JSON.pad depth) := blank_spaces _

theorem laid_null : Laid mem (str "null") .null := by
  refine ⟨⟨110, str "ull", rfl, by decide⟩, fun rest fuel _ hf => ?_⟩
  have hlen : (str "null").length = 4 := by decide
  obtain ⟨fuel, rfl⟩ : ∃ k, fuel = k + 1 := ⟨fuel - 1, by omega⟩
  exact parseNext_null .text mem rest fuel

theorem laid_boolean (b : Bool) : Laid mem (if b then str "true" else str "false") (.boolean b) := by
  have hlen : 0 < (if b then str "true" else str "false").length := by
    cases b <;> decide
  refine ⟨?_, fun rest fuel _ hf => ?_⟩
  · cases b with
    | true => exact ⟨116, str "rue", rfl, by decide⟩
    | false => exact ⟨102, str "alse", rfl, by decide⟩
  · obtain ⟨fuel, rfl⟩ : ∃ k, fuel = k + 1 := ⟨fuel - 1, by omega⟩
    exact parseNext_boolean .text mem b rest fuel

theorem laid_decInt {n : Int} (hn : IsLong n) : Laid mem (decInt n) (.integral n) := by
  have htoken := @token_decInt .text mem n hn.1 hn.2
  refine ⟨htoken.head, fun rest fuel hrest hf => ?_⟩
  obtain ⟨c, t, rfl, hc⟩ := hrest
  obtain ⟨d, u, hd⟩ := List.exists_cons_of_ne_nil (decInt_ne_nil n)
  have hdig : d = 45 ∨ IsDigit d := decInt_chars n d (by rw [hd]; exact List.mem_cons_self)
  obtain ⟨hspace, -, -, h91, h123, h34, htf, h110⟩ := numeral_head hdig
  obtain ⟨fuel, rfl⟩ : ∃ k, fuel = k + 1 := by
    refine ⟨fuel - 1, ?_⟩
    rw [hd, List.length_cons] at hf
    omega
  have hnum : parseNumber (decInt n ++ c :: t) = .ok (.integral n, c :: t) := by
    obtain ⟨-, -, hexp⟩ := endsNumber_stops hc
    rw [parseNumber, mantissa_digits (decInt_chars n) hc]
    dsimp only
    rw [if_neg hexp, if_pos hc, List.nil_append, numberValue, if_neg (by decide), stol,
      signed_decInt]
    dsimp only
    rw [if_pos ⟨hn.1, hn.2⟩]
    rfl
  rw [hd, List.cons_append] at hnum ⊢
  rw [parseNext, consumeWs_cons hspace]
  dsimp only
  rw [if_neg h91, if_neg h123, if_neg h34, if_neg htf, if_neg h110, if_pos hdig.symm, hnum]

variable (floatText : Bytes → Bytes → Bytes)

/-! ### Arrays -/

theorem dumpItems_rest (j : JSON) (items : List JSON) (depth : Nat) :
    JSON.dumpItems floatText (j :: items) depth false =
      44 :: 32 :: JSON.dumpItems floatText (j :: items) depth true := by
  rw [JSON.dumpItems, JSON.dumpItems, if_neg (by decide), if_pos rfl]
  rfl

theorem arrayLoop_dump {j : JSON} {items : List JSON} {depth : Nat}
    (h : ∀ k ∈ j :: items, Laid mem (k.dumpAt floatText (depth + 1)) k) (acc : List JSON)
    (rest : Bytes) {fuel : Nat}
    (hf : 2 * (JSON.dumpItems floatText (j :: items) depth true).length + 1 ≤ fuel) :
    arrayLoop .text mem fuel acc (JSON.dumpItems floatText (j :: items) depth true ++ 93 :: rest) =
      .ok (.array (acc ++ j :: items), rest) := by
  obtain ⟨fuel, rfl⟩ : ∃ k, fuel = k + 1 := ⟨fuel - 1, by omega⟩
  have hj := h j List.mem_cons_self
  induction items generalizing j acc fuel with
  | nil =>
    rw [JSON.dumpItems, if_pos rfl, JSON.dumpItems, List.nil_append, List.append_nil] at hf ⊢
    have hread := hj.read (93 :: rest) fuel ⟨93, rest, rfl, by decide⟩ (by omega)
    rw [arrayLoop_round hread (consumeWs_cons (by decide) rest), if_neg (by decide), if_pos rfl]
  | cons k items ih =>
    rw [JSON.dumpItems, if_pos rfl, dumpItems_rest, List.nil_append] at hf ⊢
    simp only [List.length_append, List.length_cons] at hf
    obtain ⟨fuel, rfl⟩ : ∃ k, fuel = k + 1 := ⟨fuel - 1, by omega⟩
    have hread := hj.read
      (44 :: 32 :: (JSON.dumpItems floatText (k :: items) depth true ++ 93 :: rest)) (fuel + 1)
      ⟨44, _, rfl, by decide⟩ (by omega)
    have htail := ih (fun l hl => h l (List.mem_cons_of_mem _ hl)) (acc ++ [j]) fuel (by omega)
      (h k (List.mem_cons_of_mem _ List.mem_cons_self))
    have hspace := @arrayLoop_blank .text mem [32] (by decide) (fuel + 1) (acc ++ [j])
      (JSON.dumpItems floatText (k :: items) depth true ++ 93 :: rest)
    rw [List.append_assoc, List.cons_append, List.cons_append,
      arrayLoop_round hread (consumeWs_cons (by decide) _), if_pos rfl]
    rw [List.singleton_append] at hspace
    rw [hspace, htail, List.append_assoc, List.singleton_append]

theorem laid_array {items : List JSON} {depth : Nat}
    (h : ∀ k ∈ items, Laid mem (k.dumpAt floatText (depth + 1)) k) :
    Laid mem ((JSON.array items).dumpAt floatText depth) (.array items) := by
  have hdump : (JSON.array items).dumpAt floatText depth =
      91 :: (JSON.dumpItems floatText items depth true ++ [93]) := by
    rw [JSON.dumpAt, List.append_assoc]
    rfl
  rw [hdump]
  refine ⟨⟨91, _, rfl, by decide⟩, fun rest fuel _ hf => ?_⟩
  simp only [List.length_cons, List.length_append, List.length_nil] at hf
  obtain ⟨fuel, rfl⟩ : ∃ k, fuel = k + 1 := ⟨fuel - 1, by omega⟩
  rw [List.cons_append, List.append_assoc, List.singleton_append, parseNext,
    consumeWs_cons (by decide)]
  dsimp only
  rw [if_pos rfl]
  cases items with
  | nil =>
    rw [JSON.dumpItems, List.nil_append, consumeWs_cons (by decide)]
    rfl
  | cons j items =>
    have hloop := arrayLoop_dump floatText h [] rest (by omega : _ ≤ fuel)
    obtain ⟨c, t, hc, hspace, h93, -⟩ := (h j List.mem_cons_self).head
    have hhead : JSON.dumpItems floatText (j :: items) depth true ++ 93 :: rest =
        c :: (t ++ JSON.dumpItems floatText items depth false ++ 93 :: rest) := by
      rw [JSON.dumpItems, if_pos rfl, hc]
      rfl
    rw [hhead] at hloop ⊢
    rw [consumeWs_cons hspace]
    dsimp only
    rw [List.head?_cons, if_neg (by simpa using h93), hloop]
    rfl

/-! ### Objects -/

theorem dumpFields_rest (p : Bytes × JSON) (fields : List (Bytes × JSON)) (depth : Nat) :
    JSON.dumpFields floatText (p :: fields) depth false =
      44 :: 10 :: JSON.dumpFields floatText (p :: fields) depth true := by
  rw [JSON.dumpFields, JSON.dumpFields, if_neg (by decide), if_pos rfl]
  rfl

theorem dumpField_eq (p : Bytes × JSON) (depth : Nat) :
    JSON.dumpField floatText p depth =
      JSON.pad depth ++ (quoted p.1 ++ 32 :: 58 :: 32 :: p.2.dumpAt floatText (depth + 1)) := by
  obtain ⟨key, v⟩ := p
  rw [JSON.dumpField]
  simp only [quoted, List.append_assoc]
  rfl

theorem objectLoop_field {p : Bytes × JSON} {depth : Nat}
    (key : ∃ k, p.1 = jsonEscape k ∧ Untagged k) (value : Laid mem (p.2.dumpAt floatText (depth + 1)) p.2)
    (obj : JSON) {rest t : Cursor} {c : UInt8} (hrest : Delimited rest)
    (next : consumeWs rest = .ok (c :: t)) {fuel : Nat}
    (hf : 2 * (JSON.dumpField floatText p depth).length ≤ fuel) :
    objectLoop .text mem (fuel + 1) obj (JSON.dumpField floatText p depth ++ rest) =
      if c = 44 then objectLoop .text mem fuel (obj.put p.1 p.2) t
      else if c = 125 then .ok (obj.put p.1 p.2, t)
      else .ok (obj.put p.1 p.2, c :: t) := by
  obtain ⟨k, hk, huntagged⟩ := key
  obtain ⟨d, u, hd, hspace, -⟩ := value.head
  rw [dumpField_eq] at hf ⊢
  simp only [List.length_append, List.length_cons] at hf
  have hname : (stringValue mem k).toStr = p.1 := by
    rw [stringValue_untagged mem huntagged, hk]
    rfl
  have hread : parseNext .text mem fuel (quoted p.1 ++
      32 :: 58 :: 32 :: (p.2.dumpAt floatText (depth + 1) ++ rest)) =
        .ok (stringValue mem k, 32 :: 58 :: 32 :: (p.2.dumpAt floatText (depth + 1) ++ rest)) := by
    rw [hk] at hf ⊢
    exact reads_escaped k _ fuel (by omega)
  have hcolon : consumeWs (32 :: 58 :: 32 :: (p.2.dumpAt floatText (depth + 1) ++ rest)) =
      .ok (58 :: 32 :: (p.2.dumpAt floatText (depth + 1) ++ rest)) :=
    @consumeWs_to [32] (by decide) 58 (by decide) _
  have hstart : consumeWs (32 :: (p.2.dumpAt floatText (depth + 1) ++ rest)) =
      .ok (p.2.dumpAt floatText (depth + 1) ++ rest) := by
    rw [hd]
    exact @consumeWs_to [32] (by decide) d hspace _
  have hvalue := value.read rest fuel hrest (by omega)
  have htext : JSON.pad depth ++ (quoted p.1 ++ 32 :: 58 :: 32 :: p.2.dumpAt floatText (depth + 1)) ++
      rest = JSON.pad depth ++ (quoted p.1 ++
        32 :: 58 :: 32 :: (p.2.dumpAt floatText (depth + 1) ++ rest)) := by
    simp
  rw [htext, objectLoop_blank (blank_pad _), objectLoop_round hread hcolon hstart hvalue next,
    hname]

theorem objectLoop_dump {p : Bytes × JSON} {fields : List (Bytes × JSON)} {depth : Nat}
    (keys : ∀ q ∈ p :: fields, ∃ k, q.1 = jsonEscape k ∧ Untagged k)
    (values : ∀ q ∈ p :: fields, Laid mem (q.2.dumpAt floatText (depth + 1)) q.2) (obj : JSON)
    {w : Bytes} (hw : Blank w) (rest : Bytes) {fuel : Nat}
    (hf : 2 * (JSON.dumpFields floatText (p :: fields) depth true).length ≤ fuel) :
    objectLoop .text mem (fuel + 1) obj
        (JSON.dumpFields floatText (p :: fields) depth true ++ (w ++ 125 :: rest)) =
      .ok ((p :: fields).foldl (fun (obj : JSON) q => obj.put q.1 q.2) obj, rest) := by
  have hkey := keys p List.mem_cons_self
  have hvalue := values p List.mem_cons_self
  induction fields generalizing p obj fuel with
  | nil =>
    rw [JSON.dumpFields, if_pos rfl, JSON.dumpFields, List.nil_append, List.append_nil] at hf ⊢
    rw [objectLoop_field floatText hkey hvalue obj (delimited_after hw (by decide) rest)
      (consumeWs_to hw (by decide) rest) hf, if_neg (by decide), if_pos rfl]
    rfl
  | cons q fields ih =>
    rw [JSON.dumpFields, if_pos rfl, dumpFields_rest, List.nil_append] at hf ⊢
    simp only [List.length_append, List.length_cons] at hf
    obtain ⟨fuel, rfl⟩ : ∃ k, fuel = k + 1 := ⟨fuel - 1, by omega⟩
    have htail := ih (fun l hl => keys l (List.mem_cons_of_mem _ hl))
      (fun l hl => values l (List.mem_cons_of_mem _ hl)) (obj.put p.1 p.2) (by omega : _ ≤ fuel)
      (keys q (List.mem_cons_of_mem _ List.mem_cons_self))
      (values q (List.mem_cons_of_mem _ List.mem_cons_self))
    have hline := @objectLoop_blank .text mem [10] (by decide) (fuel + 1) (obj.put p.1 p.2)
      (JSON.dumpFields floatText (q :: fields) depth true ++ (w ++ 125 :: rest))
    rw [List.singleton_append] at hline
    rw [List.append_assoc, List.cons_append, List.cons_append,
      objectLoop_field floatText hkey hvalue obj ⟨44, _, rfl, by decide⟩
        (consumeWs_cons (by decide) _) (by omega), if_pos rfl, hline, htail]
    rfl

theorem reads_object_dump {fields : List (Bytes × JSON)} (sorted : Sorted ltBytes fields) {depth : Nat}
    (keys : ∀ q ∈ fields, ∃ k, q.1 = jsonEscape k ∧ Untagged k)
    (values : ∀ q ∈ fields, Laid mem (q.2.dumpAt floatText (depth + 1)) q.2) :
    Reads .text mem ((JSON.object fields).dumpAt floatText depth) (.object fields) := by
  intro rest fuel hf
  have hclose : Blank (10 :: (JSON.pad depth).drop 2) := by
    rw [JSON.pad, List.drop_replicate]
    intro c hc
    rcases List.mem_cons.mp hc with rfl | hc
    · decide
    · exact blank_spaces _ c hc
  have htext : (JSON.object fields).dumpAt floatText depth ++ rest =
      123 :: 10 :: (JSON.dumpFields floatText fields depth true ++
        (10 :: (JSON.pad depth).drop 2 ++ 125 :: rest)) := by
    rw [JSON.dumpAt]
    simp only [List.append_assoc]
    rfl
  have hlen : (JSON.dumpFields floatText fields depth true).length + 4 ≤
      ((JSON.object fields).dumpAt floatText depth).length := by
    have h := congrArg List.length htext
    simp only [List.length_append, List.length_cons] at h
    omega
  obtain ⟨fuel, rfl⟩ : ∃ k, fuel = k + 2 := ⟨fuel - 2, by omega⟩
  rw [htext, parseNext, consumeWs_cons (by decide)]
  dsimp only
  rw [if_neg (by decide), if_pos rfl]
  cases fields with
  | nil =>
    have hws := @consumeWs_to _ hclose 125 (by decide) rest
    rw [JSON.dumpFields, List.nil_append, ← List.singleton_append, consumeWs_blank (by decide), hws]
    rfl
  | cons p fields =>
    have hloop := objectLoop_dump floatText keys values (.object []) hclose rest
      (by omega : _ ≤ fuel)
    have hpad : ∃ t, JSON.dumpFields floatText (p :: fields) depth true ++
        (10 :: (JSON.pad depth).drop 2 ++ 125 :: rest) = JSON.pad depth ++ 34 :: t := by
      refine ⟨p.1 ++ 34 :: 32 :: 58 :: 32 :: (p.2.dumpAt floatText (depth + 1) ++
        (JSON.dumpFields floatText fields depth false ++
          (10 :: (JSON.pad depth).drop 2 ++ 125 :: rest))), ?_⟩
      rw [JSON.dumpFields, if_pos rfl, dumpField_eq, List.nil_append]
      simp only [quoted_append, List.append_assoc, List.cons_append]
    obtain ⟨t, ht⟩ := hpad
    rw [ht, objectLoop_blank (blank_pad _)] at hloop
    rw [ht, ← List.singleton_append, consumeWs_blank (by decide),
      consumeWs_to (blank_pad _) (by decide)]
    dsimp only
    rw [List.head?_cons, if_neg (by decide), hloop, ← objectOf_sorted sorted]
    rfl

end

/-! ### Every document -/

section
variable {mem : Mem} (floatText : Bytes → Bytes → Bytes)

theorem untagged_of_escaped {k : Bytes} (h : Untagged (jsonEscape k)) : Untagged k := by
  intro htag
  obtain ⟨t, rfl⟩ : ∃ t, hashTag ++ t = k := by
    refine ⟨k.drop hashTag.length, ?_⟩
    have hsplit := List.take_append_drop hashTag.length k
    rwa [htag] at hsplit
  refine h ?_
  have hmark : jsonEscape hashTag = hashTag := jsonEscape_of_noEscape (by decide)
  rw [jsonEscape, List.flatMap_append, ← jsonEscape, ← jsonEscape, hmark, List.take_left]

theorem Loaded.object_keys {fields : List (Bytes × JSON)} (h : Loaded (.object fields))
    (hp : Plain (.object fields)) : ∀ q ∈ fields, ∃ k, q.1 = jsonEscape k ∧ Untagged k := by
  intro q hq
  cases h with
  | object _ keys _ =>
    cases hp with
    | object untagged _ =>
      obtain ⟨k, hk⟩ := keys q hq
      exact ⟨k, hk, untagged_of_escaped (hk ▸ untagged q hq)⟩

/-- By induction on the shape of the value, at every depth. -/
theorem Loaded.laid {j : JSON} (h : Loaded j) (hp : Plain j) (depth : Nat) :
    Laid mem (j.dumpAt floatText depth) j := by
  induction h generalizing depth with
  | null => exact laid_null
  | boolean b => exact laid_boolean b
  | integral long => exact laid_decInt long
  | floating val exp => cases hp
  | hash h =>
    have hread := @reads_quoted .text mem _ (noEscape_append (by decide : NoEscape hashTag)
      (noEscape_hexstringSafe h.val))
    rw [stringValue_tagged mem h] at hread
    have hdump : (JSON.hash h).dumpAt floatText depth = quoted (hashTag ++ hexstringSafe h.val) := by
      rw [JSON.dumpAt, quoted, List.append_assoc (str "\"")]
    rw [hdump]
    exact hread.laid (c := 34) (t := hashTag ++ hexstringSafe h.val ++ str "\"") rfl (by decide)
  | string s =>
    cases hp with
    | string untagged =>
      have hread := @reads_escaped .text mem s
      rw [stringValue_untagged mem untagged] at hread
      exact hread.laid (c := 34) (t := jsonEscape s ++ str "\"") rfl (by decide)
  | array values ih =>
    cases hp with
    | array plain => exact laid_array floatText fun j hj => ih j hj (plain j hj) (depth + 1)
  | @object fields sorted keys values ih =>
    have hkeys := (Loaded.object sorted keys values).object_keys hp
    cases hp with
    | object untagged plain =>
      have hread := @reads_object_dump mem floatText fields sorted depth hkeys
        fun q hq => ih q hq (plain q hq) (depth + 1)
      have hopen : (JSON.object fields).dumpAt floatText depth = 123 :: 10 ::
          (JSON.dumpFields floatText fields depth true ++ str "\n" ++ (JSON.pad depth).drop 2 ++
            str "\x7d") := by
        rw [JSON.dumpAt]
        simp only [List.append_assoc]
        rfl
      exact hread.laid hopen (by decide)

theorem load_dump {fields : List (Bytes × JSON)} (h : Loaded (.object fields))
    (hp : Plain (.object fields)) :
    load mem ((JSON.object fields).dump floatText) = .ok (.object fields) := by
  have hkeys := h.object_keys hp
  cases h with
  | object sorted _ values =>
    cases hp with
    | object _ plain =>
      refine load_of_reads (reads_object_dump floatText sorted hkeys fun q hq =>
        (values q hq).laid floatText (plain q hq) 2) ?_
      rw [JSON.dump, JSON.dumpAt]
      simp [str]

/-- What the loader once made of a text survives `dump`, layout and all. -/
theorem reload {text : Bytes} {fields : List (Bytes × JSON)} (h : load mem text = .ok (.object fields))
    (hp : Plain (.object fields)) :
    load mem ((JSON.object fields).dump floatText) = .ok (.object fields) :=
  load_dump floatText (load_loaded h) hp

end

theorem plainDocument_plain : Plain (.object plainDocument) := by
  refine .object (fun p hp => ?_) fun p hp => ?_
  · rcases List.mem_pair.mp hp with rfl | rfl
    · decide
    · decide
  · rcases List.mem_pair.mp hp with rfl | rfl
    · refine .array fun j hj => ?_
      simp only [List.mem_cons, List.not_mem_nil, or_false] at hj
      rcases hj with rfl | rfl | rfl
      · exact .hash zeroHash
      · exact .object (List.forall_mem_nil _) (List.forall_mem_nil _)
      · refine .array fun k hk => ?_
        rw [List.mem_singleton.mp hk]
        exact .string (by decide)
    · exact .integral _

theorem reload_plainDocument :
    load ⟨fun _ _ => 0⟩ ((JSON.object plainDocument).dump fun _ _ => []) =
      .ok (.object plainDocument) :=
  reload _ (load_of_reads (plainDocument_storable.reads fun _ _ => [])
    (strip_dump_object_ne_nil _ _)) plainDocument_plain

end CrustSworker.JsonParse

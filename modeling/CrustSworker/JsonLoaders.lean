import CrustSworker.JsonRead

/-!
# The two overloads on well-formed texts

Every function of the loader exists twice, for a string and for a buffer. The copies differ in
one place: `parse_null` of the buffer tests for the opposite and does not move over the literal.
What is around a `null` then finds an `n` where a separator should be and stops there, so the
second overload reads a text up to its first `null`.
-/

namespace CrustSworker.JsonLoaders

open JsonParse Metadata

/-! ### Well-formed texts -/

def jsonSpaces : Bytes := [32, 9, 10, 13]

def Blank (w : Bytes) : Prop := ∀ c ∈ w, c ∈ jsonSpaces

instance (w : Bytes) : Decidable (Blank w) := List.decidableBAll _ w

inductive StringBody : Bytes → Prop
  | nil : StringBody []
  | char {c : UInt8} {s : Bytes} (printable : 32 ≤ c) (quote : c ≠ 34) (slash : c ≠ 92)
      (tail : StringBody s) : StringBody (c :: s)
  | escape {e : UInt8} {s : Bytes} (known : e ∈ str "\"\\/bfnrt") (tail : StringBody s) :
      StringBody (92 :: e :: s)
  | unicode {h₁ h₂ h₃ h₄ : UInt8} {s : Bytes} (hex : hexRun 4 [h₁, h₂, h₃, h₄] = .ok true)
      (tail : StringBody s) : StringBody (92 :: 117 :: h₁ :: h₂ :: h₃ :: h₄ :: s)

def IntegerText (s : Bytes) : Prop :=
  ∃ ds, (s = ds ∨ s = 45 :: ds) ∧ ds ≠ [] ∧ (∀ c ∈ ds, IsDigit c) ∧
    (ds.head? = some 48 → ds.length = 1)

/-- What makes the overloads stop: a `null`, or an integer that is no `long` and throws. -/
inductive Event where
  | null
  | outOfRange
  deriving DecidableEq

structure Item where
  before : Bytes
  text : Bytes
  after : Bytes
  events : List Event

def Item.whole (i : Item) : Bytes := i.before ++ (i.text ++ i.after)

structure Pair where
  before : Bytes
  key : Bytes
  afterKey : Bytes
  value : Item

def Pair.whole (p : Pair) : Bytes :=
  p.before ++ (quoted p.key ++ (p.afterKey ++ (58 :: p.value.whole)))

/-- A JSON text of objects, arrays, strings, integers and literals, with its events in order. -/
inductive Value : Bytes → List Event → Prop
  | null : Value (str "null") [.null]
  | boolean (b : Bool) : Value (if b then str "true" else str "false") []
  | integer {s : Bytes} (h : IntegerText s) :
      Value s (if (stol s).isSome then [] else [.outOfRange])
  | string {s : Bytes} (h : StringBody s) : Value (quoted s) []
  | emptyArray {w : Bytes} (h : Blank w) : Value (91 :: (w ++ [93])) []
  | array {items : List Item} (some : items ≠ [])
      (blank : ∀ i ∈ items, Blank i.before ∧ Blank i.after)
      (values : ∀ i ∈ items, Value i.text i.events) :
      Value (91 :: (commaSep (items.map Item.whole) ++ [93])) (items.flatMap Item.events)
  | emptyObject {w : Bytes} (h : Blank w) : Value (123 :: (w ++ [125])) []
  | object {pairs : List Pair} (some : pairs ≠ [])
      (keys : ∀ p ∈ pairs, Blank p.before ∧ StringBody p.key ∧ Blank p.afterKey)
      (blank : ∀ p ∈ pairs, Blank p.value.before ∧ Blank p.value.after)
      (values : ∀ p ∈ pairs, Value p.value.text p.value.events) :
      Value (123 :: (commaSep (pairs.map Pair.whole) ++ [125])) (pairs.flatMap fun p => p.value.events)

/-! ### The overloads -/

def loadWith (loader : Loader) (mem : Mem) (s : Cursor) : Except Fault (JSON × Nat) :=
  (parseNext loader mem (fuelFor s) s).map fun r => (r.1, s.length - r.2.length)

/-- The string overload on the text, and the buffer overload on the text and a NUL byte. -/
def Agree (mem : Mem) (s : Bytes) : Prop :=
  loadWith .text mem (s ++ [0]) = loadWith .buffer mem (s ++ [0])

theorem load_eq (mem : Mem) {s : Bytes} (hs : s ≠ []) :
    load mem s = (loadWith .text mem (s ++ [0])).map Prod.fst := by
  rw [load, if_neg (mt List.length_eq_zero_iff.mp hs), loadWith]
  cases parseNext .text mem (fuelFor (s ++ [0])) (s ++ [0]) with
  | error f => rfl
  | ok r => rfl

theorem loadBuffer_eq (mem : Mem) (data : Bytes) {size : Nat} (hsize : size ≠ 0) :
    loadBuffer mem data size = (loadWith .buffer mem data).map Prod.fst := by
  rw [loadBuffer, if_neg hsize, loadWith]
  cases parseNext .buffer mem (fuelFor data) data with
  | error f => rfl
  | ok r => rfl

theorem Agree.loads {mem : Mem} {s : Bytes} (h : Agree mem s) (hs : s ≠ []) :
    load mem s = loadBuffer mem (s ++ [0]) s.length := by
  rw [load_eq mem hs, loadBuffer_eq mem _ (mt List.length_eq_zero_iff.mp hs), h]

/-- How the overloads come through a text with these events, with that much behind it: without
an event alike, at an integer out of range both throw, and at a `null` the buffer stays. -/
def After (events : List Event) (rest : Cursor) (r : Loader → Parsed JSON) : Prop :=
  ((∃ j, r .text = .ok (j, rest)) ∨ r .text = .error .badNumber) ∧
    match events with
    | [] => ∃ j, ∀ loader, r loader = .ok (j, rest)
    | .outOfRange :: _ => ∀ loader, r loader = .error .badNumber
    | .null :: _ => ∃ j t, r .buffer = .ok (j, 110 :: t) ∧ rest.length ≤ t.length

section
variable {rest : Cursor} {r : Loader → Parsed JSON} {j : JSON}

theorem After.clean (h : ∀ loader, r loader = .ok (j, rest)) : After [] rest r :=
  ⟨.inl ⟨j, h .text⟩, j, h⟩

theorem After.throws {events : List Event} (h : ∀ loader, r loader = .error .badNumber) :
    After (.outOfRange :: events) rest r := ⟨.inr (h .text), h⟩

theorem After.congr {events : List Event} {q : Loader → Parsed JSON}
    (h : ∀ loader, q loader = r loader) (hr : After events rest r) : After events rest q := by
  obtain rfl : q = r := funext h
  exact hr

theorem After.agree_iff {events : List Event} (h : After events rest r) {total : Nat}
    (htotal : ∀ loader j t, r loader = .ok (j, t) → t.length ≤ total) :
    ((r .text).map fun p => (p.1, total - p.2.length)) =
        ((r .buffer).map fun p => (p.1, total - p.2.length)) ↔
      events.head? ≠ some .null := by
  cases events with
  | nil =>
    obtain ⟨-, j, hj⟩ := h
    rw [hj, hj]
    simp
  | cons e events =>
    cases e with
    | outOfRange =>
      obtain ⟨-, hthrow⟩ := h
      rw [hthrow, hthrow]
      simp
    | null =>
      obtain ⟨htext, j, t, hbuffer, hle⟩ := h
      have hlen := htotal .buffer _ _ hbuffer
      rw [List.length_cons] at hlen
      refine iff_of_false (fun heq => ?_) (by simp)
      rw [hbuffer] at heq
      rcases htext with ⟨j', hj'⟩ | hthrow
      · have hrest := htotal .text _ _ hj'
        rw [hj'] at heq
        have hnum := congrArg Prod.snd (Except.ok.inj heq)
        simp only [List.length_cons] at hnum
        omega
      · rw [hthrow] at heq
        cases heq

/-- A value, then what the loop around it does behind the value. Only a value that was read to
its end lets the loop go on; the `n` that a `null` leaves behind stops it. -/
theorem After.seq {first others : List Event} {mid : Cursor} {q : Loader → Parsed JSON}
    (hr : After first mid r) (hlen : rest.length ≤ mid.length)
    (hthrow : ∀ loader, r loader = .error .badNumber → q loader = .error .badNumber)
    (hstop : ∀ loader j t, r loader = .ok (j, 110 :: t) → ∃ j', q loader = .ok (j', 110 :: t))
    (hgo : ∀ j, ∃ p, After others rest p ∧ ∀ loader, r loader = .ok (j, mid) → q loader = p loader) :
    After (first ++ others) rest q := by
  have htext : (∃ j, q .text = .ok (j, rest)) ∨ q .text = .error .badNumber := by
    rcases hr.1 with ⟨j, hj⟩ | hj
    · obtain ⟨p, hp, hq⟩ := hgo j
      rw [hq .text hj]
      exact hp.1
    · exact .inr (hthrow .text hj)
  cases first with
  | nil =>
    obtain ⟨-, j, hj⟩ := hr
    obtain ⟨p, hp, hq⟩ := hgo j
    exact hp.congr fun loader => hq loader (hj loader)
  | cons e first =>
    refine ⟨htext, ?_⟩
    cases e with
    | outOfRange => exact fun loader => hthrow loader (hr.2 loader)
    | null =>
      obtain ⟨-, j, t, hj, hle⟩ := hr
      obtain ⟨j', hj'⟩ := hstop .buffer j t hj
      exact ⟨j', t, hj', hlen.trans hle⟩

end

/-! ### White space and strings -/

theorem consumeWs_blank {w : Bytes} (hw : Blank w) (s : Cursor) :
    consumeWs (w ++ s) = consumeWs s := by
  induction w with
  | nil => rfl
  | cons c w ih =>
    have hspace : isSpace c = true := by
      have hc := hw c List.mem_cons_self
      simp only [jsonSpaces, List.mem_cons, List.not_mem_nil, or_false] at hc
      rcases hc with rfl | rfl | rfl | rfl <;> decide
    rw [List.cons_append, consumeWs, if_pos hspace, ih fun d hd => hw d (List.mem_cons_of_mem _ hd)]

theorem consumeWs_to {w : Bytes} (hw : Blank w) {c : UInt8} (hc : isSpace c = false) (t : Cursor) :
    consumeWs (w ++ c :: t) = .ok (c :: t) := by
  rw [consumeWs_blank hw, consumeWs_cons hc]

section
variable {loader : Loader} {mem : Mem}

theorem parseNext_blank {w : Bytes} (hw : Blank w) (fuel : Nat) (s : Cursor) :
    parseNext loader mem fuel (w ++ s) = parseNext loader mem fuel s := by
  cases fuel with
  | zero => rfl
  | succ fuel => rw [parseNext, parseNext, consumeWs_blank hw]

theorem arrayLoop_blank {w : Bytes} (hw : Blank w) (fuel : Nat) (items : List JSON) (s : Cursor) :
    arrayLoop loader mem fuel items (w ++ s) = arrayLoop loader mem fuel items s := by
  cases fuel with
  | zero => rfl
  | succ fuel => rw [arrayLoop, arrayLoop, parseNext_blank hw]

theorem objectLoop_blank {w : Bytes} (hw : Blank w) (fuel : Nat) (obj : JSON) (s : Cursor) :
    objectLoop loader mem fuel obj (w ++ s) = objectLoop loader mem fuel obj s := by
  cases fuel with
  | zero => rfl
  | succ fuel => rw [objectLoop, objectLoop, parseNext_blank hw]

end

theorem escape_known {e : UInt8} (h : e ∈ str "\"\\/bfnrt") : e ≠ 117 := by
  rintro rfl
  exact absurd h (by decide)

theorem hexRun_four {h₁ h₂ h₃ h₄ : UInt8} (h : hexRun 4 [h₁, h₂, h₃, h₄] = .ok true) (t : Cursor) :
    hexRun 4 (h₁ :: h₂ :: h₃ :: h₄ :: t) = .ok true := by
  simpa only [hexRun] using h

theorem stringLoop_body {s : Bytes} (h : StringBody s) (val rest : Bytes) :
    ∃ val', stringLoop (s ++ 34 :: rest) val = .ok (some val', rest) := by
  induction h generalizing val with
  | nil =>
    refine ⟨val, ?_⟩
    rw [List.nil_append, stringLoop.eq_def]
    dsimp only
    rw [if_pos rfl]
  | @char c s printable quote slash tail ih =>
    obtain ⟨val', hval⟩ := ih (val ++ [c])
    refine ⟨val', ?_⟩
    rw [List.cons_append, stringLoop.eq_def]
    dsimp only
    rw [if_neg quote, if_neg slash, hval]
  | @escape e s known tail ih =>
    obtain ⟨val', hval⟩ := ih (val ++ [unescape e])
    refine ⟨val', ?_⟩
    rw [List.cons_append, List.cons_append, stringLoop.eq_def]
    dsimp only
    rw [if_neg (by decide), if_pos rfl, if_neg (escape_known known), hval]
  | @unicode h₁ h₂ h₃ h₄ s hex tail ih =>
    obtain ⟨val', hval⟩ := ih (val ++ [92, 117, h₁, h₂, h₃, h₄])
    refine ⟨val', ?_⟩
    simp only [List.cons_append]
    rw [stringLoop.eq_def]
    dsimp only
    rw [if_neg (by decide), if_pos rfl, if_pos rfl, hexRun_four hex]
    exact hval

theorem quoted_append (s rest : Bytes) : quoted s ++ rest = 34 :: (s ++ 34 :: rest) := by
  simp [quoted, str]
  decide

theorem parseNext_string (mem : Mem) {s : Bytes} (h : StringBody s) (rest : Cursor) :
    ∃ j, ∀ loader fuel, 0 < fuel → parseNext loader mem fuel (quoted s ++ rest) = .ok (j, rest) := by
  obtain ⟨val, hval⟩ := stringLoop_body h [] rest
  refine ⟨stringValue mem val, fun loader fuel hfuel => ?_⟩
  obtain ⟨fuel, rfl⟩ := Nat.exists_eq_succ_of_ne_zero hfuel.ne'
  rw [quoted_append, parseNext, consumeWs_cons (by decide)]
  dsimp only
  rw [if_neg (by decide), if_neg (by decide), if_pos rfl, parseString, hval]

/-! ### Literals and integers -/

theorem matchLit_append (loader : Loader) (lit rest : Bytes) :
    matchLit loader lit (lit ++ rest) = .ok true := by
  unfold matchLit
  cases loader with
  | text => simp
  | buffer => simp

theorem parseNext_boolean (loader : Loader) (mem : Mem) (b : Bool) (rest : Cursor) (fuel : Nat) :
    parseNext loader mem (fuel + 1) ((if b then str "true" else str "false") ++ rest) =
      .ok (.boolean b, rest) := by
  have htrue := matchLit_append loader (str "true") rest
  have hfalse := matchLit_append loader (str "false") rest
  have hnot : matchLit loader (str "true") (str "false" ++ rest) = .ok false := by
    cases loader with
    | text => rfl
    | buffer => rfl
  cases b with
  | true =>
    rw [if_pos rfl]
    change parseNext loader mem (fuel + 1) (116 :: (str "rue" ++ rest)) = _
    rw [parseNext, consumeWs_cons (by decide)]
    dsimp only
    rw [if_neg (by decide), if_neg (by decide), if_neg (by decide), if_pos (by decide)]
    change parseBool loader (str "true" ++ rest) = _
    rw [parseBool, htrue]
    rfl
  | false =>
    rw [if_neg (by decide)]
    change parseNext loader mem (fuel + 1) (102 :: (str "alse" ++ rest)) = _
    rw [parseNext, consumeWs_cons (by decide)]
    dsimp only
    rw [if_neg (by decide), if_neg (by decide), if_neg (by decide), if_pos (by decide)]
    change parseBool loader (str "false" ++ rest) = _
    rw [parseBool, hnot, hfalse]
    rfl

theorem parseNext_null (loader : Loader) (mem : Mem) (rest : Cursor) (fuel : Nat) :
    parseNext loader mem (fuel + 1) (str "null" ++ rest) =
      .ok (.null, if loader = .text then rest else str "null" ++ rest) := by
  have hnull := matchLit_append loader (str "null") rest
  change parseNext loader mem (fuel + 1) (110 :: (str "ull" ++ rest)) = _
  rw [parseNext, consumeWs_cons (by decide)]
  dsimp only
  rw [if_neg (by decide), if_neg (by decide), if_neg (by decide), if_neg (by decide), if_pos rfl]
  change parseNull loader (str "null" ++ rest) = _
  rw [parseNull, hnull]
  cases loader with
  | text => rfl
  | buffer => rfl

def Delimited (rest : Cursor) : Prop := ∃ c t, rest = c :: t ∧ endsNumber c = true

theorem IntegerText.chars {s : Bytes} (h : IntegerText s) : ∀ c ∈ s, c = 45 ∨ IsDigit c := by
  obtain ⟨ds, hs, -, hdigits, -⟩ := h
  intro c hc
  rcases hs with rfl | rfl
  · exact .inr (hdigits c hc)
  · rcases List.mem_cons.mp hc with h | h
    · exact .inl h
    · exact .inr (hdigits c h)

theorem IntegerText.head {s : Bytes} (h : IntegerText s) :
    ∃ c t, s = c :: t ∧ (c = 45 ∨ IsDigit c) := by
  have hne : s ≠ [] := by
    obtain ⟨ds, rfl | rfl, hds, -⟩ := h
    · exact hds
    · exact List.cons_ne_nil _ _
  obtain ⟨c, t, rfl⟩ := List.exists_cons_of_ne_nil hne
  exact ⟨c, t, rfl, h.chars c List.mem_cons_self⟩

theorem parseNext_integer (loader : Loader) (mem : Mem) {s : Bytes} (h : IntegerText s)
    (rest : Cursor) (fuel : Nat) :
    parseNext loader mem (fuel + 1) (s ++ rest) = parseNumber (s ++ rest) := by
  obtain ⟨c, t, rfl, hc⟩ := h.head
  obtain ⟨hspace, -, -, h91, h123, h34, htf, h110⟩ := numeral_head hc
  rw [List.cons_append, parseNext, consumeWs_cons hspace]
  dsimp only
  rw [if_neg h91, if_neg h123, if_neg h34, if_neg htf, if_neg h110, if_pos hc.symm]

theorem parseNumber_integer {s : Bytes} (h : IntegerText s) {rest : Cursor} (hrest : Delimited rest) :
    parseNumber (s ++ rest) = (numberValue s [] false).map fun v => (v, rest) := by
  obtain ⟨c, t, rfl, hc⟩ := hrest
  obtain ⟨-, -, hexp⟩ := endsNumber_stops hc
  rw [parseNumber, mantissa_digits h.chars hc]
  dsimp only
  rw [if_neg hexp, if_pos hc, List.nil_append]

/-! ### Rounds of the loops -/

section
variable {loader : Loader} {mem : Mem} {fuel : Nat} {s t u : Cursor} {c : UInt8}

theorem arrayLoop_round {acc : List JSON} {j : JSON}
    (item : parseNext loader mem fuel s = .ok (j, t)) (next : consumeWs t = .ok (c :: u)) :
    arrayLoop loader mem (fuel + 1) acc s =
      if c = 44 then arrayLoop loader mem fuel (acc ++ [j]) u
      else if c = 93 then .ok (.array (acc ++ [j]), u)
      else .ok (.array [], c :: u) := by
  rw [arrayLoop, item]
  dsimp only
  rw [next]
  simp only [List.head?_cons, List.tail_cons, Option.some.injEq]

variable {obj key : JSON}

theorem objectLoop_other (hkey : parseNext loader mem fuel s = .ok (key, t))
    (next : consumeWs t = .ok (c :: u)) (colon : c ≠ 58) :
    objectLoop loader mem (fuel + 1) obj s = .ok (obj, c :: u) := by
  rw [objectLoop, hkey]
  dsimp only
  rw [next]
  dsimp only
  rw [List.head?_cons, if_neg fun h => colon (Option.some.inj h)]

theorem objectLoop_error {v : Cursor} {f : Fault}
    (hkey : parseNext loader mem fuel s = .ok (key, t)) (colon : consumeWs t = .ok (58 :: u))
    (start : consumeWs u = .ok v) (value : parseNext loader mem fuel v = .error f) :
    objectLoop loader mem (fuel + 1) obj s = .error f := by
  rw [objectLoop, hkey]
  dsimp only
  rw [colon]
  dsimp only
  rw [List.head?_cons, if_pos rfl, List.tail_cons, start]
  dsimp only
  rw [value]

theorem objectLoop_round {j : JSON} {v x y : Cursor}
    (hkey : parseNext loader mem fuel s = .ok (key, t)) (colon : consumeWs t = .ok (58 :: u))
    (start : consumeWs u = .ok v) (value : parseNext loader mem fuel v = .ok (j, x))
    (next : consumeWs x = .ok (c :: y)) :
    objectLoop loader mem (fuel + 1) obj s =
      if c = 44 then objectLoop loader mem fuel (obj.put key.toStr j) y
      else if c = 125 then .ok (obj.put key.toStr j, y)
      else .ok (obj.put key.toStr j, c :: y) := by
  rw [objectLoop, hkey]
  dsimp only
  rw [colon]
  dsimp only
  rw [List.head?_cons, if_pos rfl, List.tail_cons, start]
  dsimp only
  rw [value]
  dsimp only
  rw [next]
  simp only [List.head?_cons, List.tail_cons, Option.some.injEq]

end

/-! ### Values -/

theorem Value.head {v : Bytes} {events : List Event} (h : Value v events) :
    ∃ c t, v = c :: t ∧ isSpace c = false ∧ c ≠ 93 ∧ c ≠ 125 := by
  cases h with
  | null => exact ⟨110, str "ull", rfl, by decide⟩
  | boolean b =>
    cases b with
    | true => exact ⟨116, str "rue", rfl, by decide⟩
    | false => exact ⟨102, str "alse", rfl, by decide⟩
  | integer h =>
    obtain ⟨c, t, hs, hc⟩ := h.head
    obtain ⟨hspace, h93, h125, -⟩ := numeral_head hc
    exact ⟨c, t, hs, hspace, h93, h125⟩
  | string h => exact ⟨34, _, rfl, by decide⟩
  | emptyArray h => exact ⟨91, _, rfl, by decide⟩
  | array h => exact ⟨91, _, rfl, by decide⟩
  | emptyObject h => exact ⟨123, _, rfl, by decide⟩
  | object h => exact ⟨123, _, rfl, by decide⟩

/-- How a text is come through, whatever follows; an integer needs something that ends it. -/
def Passes (mem : Mem) (v : Bytes) (events : List Event) : Prop :=
  ∀ rest fuel, (IntegerText v → Delimited rest) → 2 * v.length ≤ fuel →
    After events rest fun loader => parseNext loader mem fuel (v ++ rest)

theorem delimited_after {w : Bytes} (hw : Blank w) {c : UInt8} (hc : endsNumber c = true)
    (t : Cursor) : Delimited (w ++ c :: t) := by
  cases w with
  | nil => exact ⟨c, t, rfl, hc⟩
  | cons d w =>
    refine ⟨d, w ++ c :: t, rfl, ?_⟩
    have hd := hw d List.mem_cons_self
    simp only [jsonSpaces, List.mem_cons, List.not_mem_nil, or_false] at hd
    rcases hd with rfl | rfl | rfl | rfl <;> decide

section
variable {mem : Mem}

theorem arrayLoop_item {i : Item} (blank : Blank i.before ∧ Blank i.after)
    (hv : Passes mem i.text i.events) {c : UInt8} (hc : c = 44 ∨ c = 93) {others : List Event}
    {rest t : Cursor} (hlen : rest.length ≤ t.length) {fuel : Nat} (hf : 2 * i.text.length ≤ fuel)
    (acc : List JSON)
    (hnext : ∀ j, After others rest fun loader =>
      if c = 44 then arrayLoop loader mem fuel (acc ++ [j]) t else .ok (.array (acc ++ [j]), t)) :
    After (i.events ++ others) rest fun loader =>
      arrayLoop loader mem (fuel + 1) acc (i.whole ++ c :: t) := by
  obtain ⟨hb, ha⟩ := blank
  have hends : endsNumber c = true := by rcases hc with rfl | rfl <;> decide
  have hspace : isSpace c = false := by rcases hc with rfl | rfl <;> decide
  have hread := hv (i.after ++ c :: t) fuel (fun _ => delimited_after ha hends t) hf
  have htext : ∀ loader, arrayLoop loader mem (fuel + 1) acc (i.whole ++ c :: t) =
      arrayLoop loader mem (fuel + 1) acc (i.text ++ (i.after ++ c :: t)) := by
    intro loader
    rw [Item.whole, List.append_assoc, arrayLoop_blank hb, List.append_assoc]
  refine After.congr htext (hread.seq ?_ ?_ ?_ ?_)
  · simp only [List.length_append, List.length_cons]
    omega
  · intro loader herr
    rw [arrayLoop, herr]
  · intro loader j u hj
    refine ⟨.array [], ?_⟩
    rw [arrayLoop_round hj (consumeWs_cons (by decide) u), if_neg (by decide), if_neg (by decide)]
  · intro j
    refine ⟨_, hnext j, fun loader hj => ?_⟩
    rw [arrayLoop_round hj (consumeWs_to ha hspace t)]
    rcases hc with rfl | rfl
    · rw [if_pos rfl, if_pos rfl]
    · rw [if_neg (by decide), if_pos rfl, if_neg (by decide)]

theorem arrayLoop_items {i : Item} {is : List Item}
    (blank : ∀ k ∈ i :: is, Blank k.before ∧ Blank k.after)
    (values : ∀ k ∈ i :: is, Passes mem k.text k.events) (acc : List JSON) (rest : Cursor)
    {fuel : Nat} (hf : 2 * (commaSep ((i :: is).map Item.whole)).length + 1 ≤ fuel) :
    After ((i :: is).flatMap Item.events) rest fun loader =>
      arrayLoop loader mem fuel acc (commaSep ((i :: is).map Item.whole) ++ 93 :: rest) := by
  induction is generalizing i acc fuel with
  | nil =>
    obtain ⟨fuel, rfl⟩ : ∃ k, fuel = k + 1 := ⟨fuel - 1, by omega⟩
    simp only [List.map_cons, List.map_nil, commaSep, Item.whole, List.length_append] at hf
    exact arrayLoop_item (blank i List.mem_cons_self) (values i List.mem_cons_self) (.inr rfl) le_rfl
      (by omega) acc fun j => After.clean fun _ => rfl
  | cons k is ih =>
    obtain ⟨fuel, rfl⟩ : ∃ k, fuel = k + 1 := ⟨fuel - 1, by omega⟩
    have hsplit : commaSep ((i :: k :: is).map Item.whole) =
        i.whole ++ 44 :: commaSep ((k :: is).map Item.whole) := commaSep_cons _ _ _
    rw [hsplit] at hf
    simp only [List.length_append, List.length_cons, Item.whole] at hf
    have hfuel : 2 * (commaSep ((k :: is).map Item.whole)).length + 1 ≤ fuel := by omega
    have htail := fun j => ih (fun l hl => blank l (List.mem_cons_of_mem _ hl))
      (fun l hl => values l (List.mem_cons_of_mem _ hl)) (acc ++ [j]) hfuel
    rw [hsplit, List.append_assoc, List.cons_append]
    refine arrayLoop_item (blank i List.mem_cons_self) (values i List.mem_cons_self) (.inl rfl) ?_
      (by omega) acc fun j => ?_
    · simp only [List.length_append, List.length_cons]
      omega
    · exact (htail j).congr fun loader => if_pos rfl

theorem objectLoop_pair {p : Pair} (key : Blank p.before ∧ StringBody p.key ∧ Blank p.afterKey)
    (blank : Blank p.value.before ∧ Blank p.value.after)
    (value : Value p.value.text p.value.events) (hv : Passes mem p.value.text p.value.events)
    {c : UInt8} (hc : c = 44 ∨ c = 125) {others : List Event} {rest t : Cursor}
    (hlen : rest.length ≤ t.length) {fuel : Nat} (hf : 2 * p.whole.length ≤ fuel) (obj : JSON)
    (hnext : ∀ obj', After others rest fun loader =>
      if c = 44 then objectLoop loader mem fuel obj' t else .ok (obj', t)) :
    After (p.value.events ++ others) rest fun loader =>
      objectLoop loader mem (fuel + 1) obj (p.whole ++ c :: t) := by
  obtain ⟨hb, hk, hak⟩ := key
  obtain ⟨hvb, hva⟩ := blank
  have hsize : p.value.text.length + 1 ≤ p.whole.length := by
    simp only [Pair.whole, Item.whole, List.length_append, List.length_cons]
    omega
  have hends : endsNumber c = true := by rcases hc with rfl | rfl <;> decide
  have hspace : isSpace c = false := by rcases hc with rfl | rfl <;> decide
  have hread := hv (p.value.after ++ c :: t) fuel (fun _ => delimited_after hva hends t) (by omega)
  obtain ⟨k, hkey⟩ := parseNext_string mem hk
    (p.afterKey ++ 58 :: (p.value.whole ++ c :: t))
  have hwhole : p.whole ++ c :: t =
      p.before ++ (quoted p.key ++ (p.afterKey ++ 58 :: (p.value.whole ++ c :: t))) := by
    simp only [Pair.whole, List.append_assoc, List.cons_append]
  have hval : consumeWs (p.value.whole ++ c :: t) =
      .ok (p.value.text ++ (p.value.after ++ c :: t)) := by
    obtain ⟨d, u, hd, hsp, -⟩ := value.head
    rw [Item.whole, List.append_assoc, List.append_assoc, hd, List.cons_append,
      consumeWs_to hvb hsp]
  have hcolon := consumeWs_to hak (by decide : isSpace 58 = false) (p.value.whole ++ c :: t)
  have hpair : ∀ loader, objectLoop loader mem (fuel + 1) obj (p.whole ++ c :: t) =
      objectLoop loader mem (fuel + 1) obj
        (quoted p.key ++ (p.afterKey ++ 58 :: (p.value.whole ++ c :: t))) := by
    intro loader
    rw [hwhole, objectLoop_blank hb]
  have hread' := fun loader => hkey loader fuel (by omega)
  refine After.congr hpair (hread.seq ?_ ?_ ?_ ?_)
  · simp only [List.length_append, List.length_cons]
    omega
  · intro loader herr
    exact objectLoop_error (hread' loader) hcolon hval herr
  · intro loader j u hj
    refine ⟨obj.put k.toStr j, ?_⟩
    rw [objectLoop_round (hread' loader) hcolon hval hj (consumeWs_cons (by decide) u),
      if_neg (by decide), if_neg (by decide)]
  · intro j
    refine ⟨_, hnext (obj.put k.toStr j), fun loader hj => ?_⟩
    rw [objectLoop_round (hread' loader) hcolon hval hj (consumeWs_to hva hspace t)]
    rcases hc with rfl | rfl
    · rw [if_pos rfl, if_pos rfl]
    · rw [if_neg (by decide), if_pos rfl, if_neg (by decide)]

theorem objectLoop_pairs {p : Pair} {ps : List Pair}
    (keys : ∀ q ∈ p :: ps, Blank q.before ∧ StringBody q.key ∧ Blank q.afterKey)
    (blank : ∀ q ∈ p :: ps, Blank q.value.before ∧ Blank q.value.after)
    (values : ∀ q ∈ p :: ps, Value q.value.text q.value.events)
    (passes : ∀ q ∈ p :: ps, Passes mem q.value.text q.value.events) (obj : JSON) (rest : Cursor)
    {fuel : Nat} (hf : 2 * (commaSep ((p :: ps).map Pair.whole)).length + 1 ≤ fuel) :
    After ((p :: ps).flatMap fun q => q.value.events) rest fun loader =>
      objectLoop loader mem fuel obj (commaSep ((p :: ps).map Pair.whole) ++ 125 :: rest) := by
  induction ps generalizing p obj fuel with
  | nil =>
    obtain ⟨fuel, rfl⟩ : ∃ k, fuel = k + 1 := ⟨fuel - 1, by omega⟩
    simp only [List.map_cons, List.map_nil, commaSep] at hf
    exact objectLoop_pair (keys p List.mem_cons_self) (blank p List.mem_cons_self)
      (values p List.mem_cons_self) (passes p List.mem_cons_self) (.inr rfl) le_rfl (by omega) obj
      fun obj' => After.clean fun _ => rfl
  | cons q ps ih =>
    obtain ⟨fuel, rfl⟩ : ∃ k, fuel = k + 1 := ⟨fuel - 1, by omega⟩
    have hsplit : commaSep ((p :: q :: ps).map Pair.whole) =
        p.whole ++ 44 :: commaSep ((q :: ps).map Pair.whole) := commaSep_cons _ _ _
    rw [hsplit] at hf
    simp only [List.length_append, List.length_cons] at hf
    have hfuel : 2 * (commaSep ((q :: ps).map Pair.whole)).length + 1 ≤ fuel := by omega
    have htail := fun obj' => ih (fun l hl => keys l (List.mem_cons_of_mem _ hl))
      (fun l hl => blank l (List.mem_cons_of_mem _ hl))
      (fun l hl => values l (List.mem_cons_of_mem _ hl))
      (fun l hl => passes l (List.mem_cons_of_mem _ hl)) obj' hfuel
    rw [hsplit, List.append_assoc, List.cons_append]
    refine objectLoop_pair (keys p List.mem_cons_self) (blank p List.mem_cons_self)
      (values p List.mem_cons_self) (passes p List.mem_cons_self) (.inl rfl) ?_ (by omega) obj
      fun obj' => ?_
    · simp only [List.length_append, List.length_cons]
      omega
    · exact (htail obj').congr fun loader => if_pos rfl

theorem passes_array {body : Bytes} {events : List Event}
    (head : ∃ w c t, body = w ++ c :: t ∧ Blank w ∧ isSpace c = false ∧ c ≠ 93)
    (loop : ∀ rest fuel, 2 * body.length + 1 ≤ fuel →
      After events rest fun loader => arrayLoop loader mem fuel [] (body ++ 93 :: rest)) :
    Passes mem (91 :: (body ++ [93])) events := by
  obtain ⟨w, c, t, rfl, hw, hspace, h93⟩ := head
  intro rest fuel _ hf
  simp only [List.length_cons, List.length_append, List.length_nil] at hf
  obtain ⟨fuel, rfl⟩ : ∃ k, fuel = k + 1 := ⟨fuel - 1, by omega⟩
  have hloop := loop rest fuel (by
    simp only [List.length_append, List.length_cons]
    omega)
  refine hloop.congr fun loader => ?_
  have hopen : 91 :: (w ++ c :: t ++ [93]) ++ rest = 91 :: (w ++ c :: (t ++ 93 :: rest)) := by
    simp
  have hbody : w ++ c :: t ++ 93 :: rest = w ++ c :: (t ++ 93 :: rest) := by simp
  rw [hopen, hbody, arrayLoop_blank hw, parseNext, consumeWs_cons (by decide)]
  dsimp only
  rw [if_pos rfl, consumeWs_to hw hspace]
  dsimp only
  rw [List.head?_cons, if_neg (by simpa using h93)]

theorem passes_object {body : Bytes} {events : List Event}
    (head : ∃ w c t, body = w ++ c :: t ∧ Blank w ∧ isSpace c = false ∧ c ≠ 125)
    (loop : ∀ rest fuel, 2 * body.length + 1 ≤ fuel →
      After events rest fun loader => objectLoop loader mem fuel (.object []) (body ++ 125 :: rest)) :
    Passes mem (123 :: (body ++ [125])) events := by
  obtain ⟨w, c, t, rfl, hw, hspace, h125⟩ := head
  intro rest fuel _ hf
  simp only [List.length_cons, List.length_append, List.length_nil] at hf
  obtain ⟨fuel, rfl⟩ : ∃ k, fuel = k + 1 := ⟨fuel - 1, by omega⟩
  have hloop := loop rest fuel (by
    simp only [List.length_append, List.length_cons]
    omega)
  refine hloop.congr fun loader => ?_
  have hopen : 123 :: (w ++ c :: t ++ [125]) ++ rest = 123 :: (w ++ c :: (t ++ 125 :: rest)) := by
    simp
  have hbody : w ++ c :: t ++ 125 :: rest = w ++ c :: (t ++ 125 :: rest) := by simp
  rw [hopen, hbody, objectLoop_blank hw, parseNext, consumeWs_cons (by decide)]
  dsimp only
  rw [if_neg (by decide), if_pos rfl, consumeWs_to hw hspace]
  dsimp only
  rw [List.head?_cons, if_neg (by simpa using h125)]

theorem commaSep_starts (x : Bytes) (xs : List Bytes) : ∃ t, commaSep (x :: xs) = x ++ t := by
  cases xs with
  | nil => exact ⟨[], (List.append_nil x).symm⟩
  | cons y ys => exact ⟨44 :: commaSep (y :: ys), commaSep_cons x y ys⟩

/-- By induction on the text: an element is come through by the induction hypothesis, the rest
of its container by induction on the elements. -/
theorem Value.passes {v : Bytes} {events : List Event} (h : Value v events) :
    Passes mem v events := by
  induction h with
  | null =>
    intro rest fuel _ hf
    obtain ⟨fuel, rfl⟩ : ∃ k, fuel = k + 1 := ⟨fuel - 1, by
      have : (str "null").length = 4 := by decide
      omega⟩
    refine ⟨.inl ⟨.null, parseNext_null .text mem rest fuel⟩, .null, str "ull" ++ rest,
      parseNext_null .buffer mem rest fuel, ?_⟩
    rw [List.length_append]
    omega
  | boolean b =>
    intro rest fuel _ hf
    obtain ⟨fuel, rfl⟩ : ∃ k, fuel = k + 1 := ⟨fuel - 1, by
      have : 0 < (if b then str "true" else str "false").length := by cases b <;> decide
      omega⟩
    exact After.clean fun loader => parseNext_boolean loader mem b rest fuel
  | @integer s h =>
    intro rest fuel hrest hf
    obtain ⟨c, t, hs, -⟩ := h.head
    obtain ⟨fuel, rfl⟩ : ∃ k, fuel = k + 1 := ⟨fuel - 1, by
      rw [hs, List.length_cons] at hf
      omega⟩
    cases hv : stol s with
    | none =>
      refine After.throws fun loader => ?_
      rw [parseNext_integer loader mem h, parseNumber_integer h (hrest h), numberValue,
        if_neg (by decide), hv]
      rfl
    | some v =>
      refine @After.clean _ _ (.integral v) fun loader => ?_
      rw [parseNext_integer loader mem h, parseNumber_integer h (hrest h), numberValue,
        if_neg (by decide), hv]
      rfl
  | @string s h =>
    intro rest fuel _ hf
    obtain ⟨j, hj⟩ := parseNext_string mem h rest
    have hlen : 0 < (quoted s).length := Nat.succ_pos _
    exact After.clean fun loader => hj loader fuel (by omega)
  | @emptyArray w hw =>
    intro rest fuel _ hf
    rw [List.length_cons] at hf
    obtain ⟨fuel, rfl⟩ : ∃ k, fuel = k + 1 := ⟨fuel - 1, by omega⟩
    refine @After.clean _ _ (.array []) fun loader => ?_
    rw [List.cons_append, List.append_assoc, parseNext, consumeWs_cons (by decide)]
    dsimp only
    rw [if_pos rfl, List.singleton_append, consumeWs_to hw (by decide)]
    rfl
  | @array items some blank values ih =>
    obtain ⟨i, is, rfl⟩ := List.exists_cons_of_ne_nil some
    refine passes_array ?_ fun rest fuel hf => arrayLoop_items blank ih [] rest hf
    obtain ⟨c, t, hc, hspace, h93, -⟩ := (values i List.mem_cons_self).head
    obtain ⟨u, hu⟩ := commaSep_starts i.whole (is.map Item.whole)
    refine ⟨i.before, c, t ++ i.after ++ u, ?_, (blank i List.mem_cons_self).1, hspace, h93⟩
    rw [List.map_cons, hu, Item.whole, hc]
    simp
  | @emptyObject w hw =>
    intro rest fuel _ hf
    rw [List.length_cons] at hf
    obtain ⟨fuel, rfl⟩ : ∃ k, fuel = k + 1 := ⟨fuel - 1, by omega⟩
    refine @After.clean _ _ (.object []) fun loader => ?_
    rw [List.cons_append, List.append_assoc, parseNext, consumeWs_cons (by decide)]
    dsimp only
    rw [if_neg (by decide), if_pos rfl, List.singleton_append, consumeWs_to hw (by decide)]
    rfl
  | @object pairs some keys blank values ih =>
    obtain ⟨p, ps, rfl⟩ := List.exists_cons_of_ne_nil some
    refine passes_object ?_ fun rest fuel hf => objectLoop_pairs keys blank values ih _ rest hf
    obtain ⟨u, hu⟩ := commaSep_starts p.whole (ps.map Pair.whole)
    refine ⟨p.before, 34, p.key ++ 34 :: (p.afterKey ++ 58 :: p.value.whole) ++ u, ?_,
      (keys p List.mem_cons_self).1, by decide, by decide⟩
    rw [List.map_cons, hu, Pair.whole, quoted_append]
    simp

end

/-! ### Where the overloads agree -/

theorem Value.integer_head {v : Bytes} {events : List Event} (h : Value v events)
    (hi : IntegerText v) : events.head? ≠ some .null := by
  obtain ⟨c, t, hv, hc⟩ := hi.head
  obtain ⟨-, -, -, h91, h123, -, -, h110⟩ := numeral_head hc
  cases h with
  | null =>
    cases hv
    exact absurd rfl h110
  | boolean b => exact nofun
  | integer h => split_ifs <;> simp
  | string h => exact nofun
  | emptyArray h => exact nofun
  | array h =>
    cases hv
    exact absurd rfl h91
  | emptyObject h => exact nofun
  | object h =>
    cases hv
    exact absurd rfl h123

/-- Whatever stands behind the text, the overloads agree on it unless a `null` stands in it in
front of every integer that makes both throw. -/
theorem loaders_agree_iff (mem : Mem) {v w behind : Bytes} {events : List Event} (hw : Blank w)
    (hv : Value v events) : Agree mem (w ++ v ++ behind) ↔ events.head? ≠ some .null := by
  have htext : w ++ v ++ behind ++ [0] = w ++ (v ++ (behind ++ [0])) := by simp
  have hfuel : 2 * v.length ≤ fuelFor (w ++ (v ++ (behind ++ [0]))) := by
    simp only [fuelFor, List.length_append]
    omega
  rw [Agree, loadWith, loadWith, htext]
  by_cases hi : IntegerText v
  · refine iff_of_true ?_ (hv.integer_head hi)
    rw [fuelFor, parseNext_blank hw, parseNext_blank hw, parseNext_integer .text mem hi,
      parseNext_integer .buffer mem hi]
  · refine @After.agree_iff (behind ++ [0]) (fun loader => parseNext loader mem
      (fuelFor (w ++ (v ++ (behind ++ [0])))) (w ++ (v ++ (behind ++ [0])))) events ?_ _ ?_
    · exact (hv.passes (behind ++ [0]) _ (absurd · hi) hfuel).congr fun _ => parseNext_blank hw _ _
    · intro loader j t ht
      exact ((parse_settled loader mem _).1 _ le_rfl).2 _ _ ht

theorem integerText_digits {ds : Bytes} (h : ∀ c ∈ ds, IsDigit c) (hne : ds ≠ [])
    (hzero : ds.head? ≠ some 48) (hlong : (stol ds).isSome = true) : Value ds [] := by
  have h := Value.integer ⟨ds, .inl rfl, hne, h, fun h48 => absurd h48 hzero⟩
  rwa [if_pos hlong] at h

theorem loaders_agree_array : Agree ⟨fun _ _ => 0⟩ (str " [true, 12]") := by
  have hvalue : Value (str "[true, 12]") [] := by
    refine @Value.array [⟨[], str "true", [], []⟩, ⟨str " ", str "12", [], []⟩] (by simp) ?_ ?_
    · simp only [List.mem_cons, List.not_mem_nil, or_false]
      rintro i (rfl | rfl)
      · exact ⟨by decide, by decide⟩
      · exact ⟨by decide, by decide⟩
    · simp only [List.mem_cons, List.not_mem_nil, or_false]
      rintro i (rfl | rfl)
      · exact Value.boolean true
      · exact integerText_digits (by decide +kernel) (by decide) (by decide) (by decide +kernel)
  exact (@loaders_agree_iff ⟨fun _ _ => 0⟩ _ (str " ") [] _ (by decide) hvalue).mpr nofun

/-! ### A document with a `null` -/

def nullDocument : Bytes := str "\x7b\"a\":null,\"b\":true\x7d"

theorem nullDocument_value : Value nullDocument [.null] := by
  refine @Value.object [⟨[], str "a", [], [], str "null", [], [.null]⟩,
    ⟨[], str "b", [], [], str "true", [], []⟩] (by simp) ?_ ?_ ?_
  · simp only [List.mem_cons, List.not_mem_nil, or_false]
    rintro p (rfl | rfl)
    · exact ⟨by decide, .char (by decide) (by decide) (by decide) .nil, by decide⟩
    · exact ⟨by decide, .char (by decide) (by decide) (by decide) .nil, by decide⟩
  · simp only [List.mem_cons, List.not_mem_nil, or_false]
    rintro p (rfl | rfl)
    · exact ⟨by decide, by decide⟩
    · exact ⟨by decide, by decide⟩
  · simp only [List.mem_cons, List.not_mem_nil, or_false]
    rintro p (rfl | rfl)
    · exact .null
    · exact .boolean true

theorem token_null (mem : Mem) : Token .text mem (str "null") .null := by
  refine ⟨⟨110, str "ull", rfl, by decide⟩, fun c rest fuel _ hf => ?_⟩
  have hlen : (str "null").length = 4 := by decide
  obtain ⟨fuel, rfl⟩ : ∃ k, fuel = k + 1 := ⟨fuel - 1, by omega⟩
  exact parseNext_null .text mem (c :: rest) fuel

theorem token_true (loader : Loader) (mem : Mem) :
    Token loader mem (str "true") (.boolean true) := by
  refine ⟨⟨116, str "rue", rfl, by decide⟩, fun c rest fuel _ hf => ?_⟩
  have hlen : (str "true").length = 4 := by decide
  obtain ⟨fuel, rfl⟩ : ∃ k, fuel = k + 1 := ⟨fuel - 1, by omega⟩
  exact parseNext_boolean loader mem true (c :: rest) fuel

theorem nullDocument_text (mem : Mem) :
    loadWith .text mem (nullDocument ++ [0]) =
      .ok (.object [(str "a", .null), (str "b", .boolean true)], 19) := by
  have hread := @reads_object .text mem (Bytes × Bytes × JSON) (fun x => x.2.1) (fun x => x.2.2)
    (fun x => x.1) [(str "a", str "null", .null), (str "b", str "true", .boolean true)]
    (by decide) (by decide) (by
      simp only [List.mem_cons, List.not_mem_nil, or_false]
      rintro y (rfl | rfl)
      · exact token_null mem
      · exact token_true .text mem)
  have h : parseNext .text mem (fuelFor (nullDocument ++ [0])) (nullDocument ++ [0]) = _ :=
    hread [0] (fuelFor (nullDocument ++ [0])) (by decide)
  rw [loadWith, h]
  rfl

theorem nullDocument_buffer (mem : Mem) :
    loadWith .buffer mem (nullDocument ++ [0]) = .ok (.object [(str "a", .null)], 5) := by
  let behind : Cursor := str "null" ++ str ",\"b\":true\x7d\x00"
  have hkey := @reads_quoted .buffer mem (str "a") (by decide) (58 :: behind) 39 (by decide)
  have hvalue : parseNext .buffer mem 39 behind = .ok (.null, behind) :=
    parseNext_null .buffer mem (str ",\"b\":true\x7d\x00") 38
  have hnext : consumeWs behind = .ok (110 :: (str "ull" ++ str ",\"b\":true\x7d\x00")) :=
    consumeWs_cons (by decide) _
  have hloop : ∀ obj, objectLoop .buffer mem 40 obj (quoted (str "a") ++ 58 :: behind) =
      .ok (obj.put (str "a") .null, behind) := by
    intro obj
    rw [objectLoop_round hkey (consumeWs_cons (by decide) behind) hnext hvalue hnext,
      if_neg (by decide), if_neg (by decide)]
    rfl
  have h : parseNext .buffer mem (fuelFor (nullDocument ++ [0])) (nullDocument ++ [0]) =
      .ok (.object [(str "a", .null)], behind) := by
    change parseNext .buffer mem (40 + 1) (123 :: (quoted (str "a") ++ 58 :: behind)) = _
    rw [parseNext, consumeWs_cons (by decide)]
    dsimp only
    rw [if_neg (by decide), if_pos rfl]
    exact hloop (.object [])
  rw [loadWith, h]
  rfl

theorem null_ends_the_document :
    (∃ events, Value nullDocument events) ∧ ¬ Agree ⟨fun _ _ => 0⟩ nullDocument := by
  refine ⟨⟨_, nullDocument_value⟩, fun hagree => ?_⟩
  rw [Agree, nullDocument_text, nullDocument_buffer] at hagree
  have hread := congrArg Prod.snd (Except.ok.inj hagree)
  exact absurd hread (by decide)

end CrustSworker.JsonLoaders

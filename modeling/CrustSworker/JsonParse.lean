import CrustSworker.Json

/-!
# The JSON loader

`JSON::Load` in its two overloads. A cursor is the part of the input from `offset`
on, so advancing drops its head and a read from the empty cursor lies outside the
input. The text overload sees the terminating NUL of its `std::string`; the buffer
overload sees exactly the bytes it was given. Apart from `parse_null`, whose test is
inverted in the buffer overload, the two are the same code.

`fuel` bounds the recursion; `parseNext_fuel` shows that the amount `load` passes is
never used up.
-/

namespace CrustSworker.JsonParse

inductive Fault where
  | outOfBounds
  | badNumber
  | fuel
  deriving DecidableEq, Repr

inductive Loader where
  | text
  | buffer
  deriving DecidableEq, Repr

abbrev Cursor := Bytes
abbrev Parsed (α : Type) := Except Fault (α × Cursor)

def isSpace (c : UInt8) : Bool := decide (c = 32) || (decide (9 ≤ c) && decide (c ≤ 13))

def isHexDigit (c : UInt8) : Bool :=
  (decide (48 ≤ c) && decide (c ≤ 57)) || (decide (97 ≤ c) && decide (c ≤ 102)) ||
    (decide (65 ≤ c) && decide (c ≤ 70))

def endsNumber (c : UInt8) : Bool := isSpace c || decide (c = 44) || decide (c = 93) || decide (c = 125)

def consumeWs : Cursor → Except Fault Cursor
  | [] => .error .outOfBounds
  | c :: t => if isSpace c then consumeWs t else .ok (c :: t)

/-! ### Strings -/

def unescape (e : UInt8) : UInt8 :=
  if e = 34 then 34
  else if e = 47 then 47
  else if e = 98 then 8
  else if e = 102 then 12
  else if e = 110 then 10
  else if e = 114 then 13
  else if e = 116 then 9
  else 92

def hexRun : Nat → Cursor → Except Fault Bool
  | 0, _ => .ok true
  | _ + 1, [] => .error .outOfBounds
  | n + 1, c :: t => if isHexDigit c then hexRun n t else .ok false

/-- The loop of `parse_string`, entered behind the opening quote. `none` is the early
return of an empty string on a bad `\u` escape, which leaves the cursor at the `u`. -/
def stringLoop : Cursor → Bytes → Parsed (Option Bytes)
  | [], _ => .error .outOfBounds
  | c :: t, val =>
    if c = 34 then .ok (some val, t)
    else if c = 92 then
      match t with
      | [] => .error .outOfBounds
      | e :: t' =>
        if e = 117 then
          match hexRun 4 t' with
          | .error f => .error f
          | .ok false => .ok (none, e :: t')
          | .ok true =>
            match t' with
            | h1 :: h2 :: h3 :: h4 :: rest => stringLoop rest (val ++ [92, 117, h1, h2, h3, h4])
            | _ => .error .outOfBounds
        else stringLoop t' (val ++ [unescape e])
    else stringLoop t (val ++ [c])

def stringValue (mem : Mem) (val : Bytes) : JSON :=
  if val.take hashTag.length = hashTag then
    match hexStringToBytes (val.drop hashTag.length) with
    | some p => .hash (mem.read p 32)
    | none => .string (val.drop hashTag.length)
  else .string val

def parseString (mem : Mem) (s : Cursor) : Parsed JSON :=
  match stringLoop s [] with
  | .error f => .error f
  | .ok (none, t) => .ok (.string [], t)
  | .ok (some val, t) => .ok (stringValue mem val, t)

/-! ### Numbers -/

def digitsOf (s : Bytes) : Bytes := s.takeWhile fun c => decide (IsDigit c)

def signed (s : Bytes) : Option Int :=
  match s with
  | 45 :: t => if digitsOf t = [] then none else some (-(decVal (digitsOf t) : Int))
  | s => if digitsOf s = [] then none else some (decVal (digitsOf s) : Int)

def stol (s : Bytes) : Option Int :=
  match signed s with
  | none => none
  | some v => if -2 ^ 63 ≤ v ∧ v < 2 ^ 63 then some v else none

def doubleLimit : Nat := 2 ^ 1024 - 2 ^ 970

/-- Whether `n / 10 ^ k` is rounded to something below the least normal double, and not exactly. -/
def underflows (n k : Nat) : Bool :=
  decide (n ≠ 0) && decide (n * 2 ^ 1076 < (2 ^ 54 - 1) * 10 ^ k) &&
    decide (n * 2 ^ 1074 % 10 ^ k ≠ 0)

/-- Whether `std::stod` returns; it throws without digits and for what is out of range on either
side. -/
def stodOk (s : Bytes) : Bool :=
  let t := match s with | 45 :: t => t | s => s
  let whole := digitsOf t
  let fraction := match t.drop whole.length with | 46 :: f => digitsOf f | _ => []
  decide (whole ≠ [] ∨ fraction ≠ []) && decide (decVal whole < doubleLimit) &&
    !underflows (decVal (whole ++ fraction)) fraction.length

def mantissa : Cursor → Bytes → Bool → Except Fault (Bytes × Bool × Cursor)
  | [], _, _ => .error .outOfBounds
  | c :: t, val, dbl =>
    if c = 45 ∨ IsDigit c then mantissa t (val ++ [c]) dbl
    else if c = 46 then mantissa t (val ++ [c]) true
    else .ok (val, dbl, c :: t)

/-- The exponent loop; `none` is its early return of a null value. -/
def exponent : Cursor → Bytes → Parsed (Option Bytes)
  | [], _ => .error .outOfBounds
  | c :: t, ex =>
    if IsDigit c then exponent t (ex ++ [c])
    else if endsNumber c then .ok (some ex, c :: t)
    else .ok (none, t)

/-- The character behind `e` is read and dropped; after a minus sign one more is. -/
def exponentStart : Cursor → Parsed (Option Bytes)
  | [] => .error .outOfBounds
  | c :: t => if c = 45 then exponent t.tail [45] else exponent t []

def numberValue (val ex : Bytes) (dbl : Bool) : Except Fault JSON :=
  if dbl then if stodOk val then .ok (.floating val ex) else .error .badNumber
  else match stol val with
    | none => .error .badNumber
    | some v => if ex = [] then .ok (.integral v) else .ok (.floating val ex)

def parseNumber (s : Cursor) : Parsed JSON :=
  match mantissa s [] false with
  | .error f => .error f
  | .ok (_, _, []) => .error .outOfBounds
  | .ok (val, dbl, c :: t) =>
    if c = 69 ∨ c = 101 then
      match exponentStart t with
      | .error f => .error f
      | .ok (none, s) => .ok (.null, s)
      | .ok (some ex, s) =>
        match stol ex with
        | none => .error .badNumber
        | some _ => (numberValue val ex dbl).map fun v => (v, s)
    else if endsNumber c then (numberValue val [] dbl).map fun v => (v, c :: t)
    else .ok (.null, t)

/-! ### Literals -/

/-- `substr` ends with the text, `memcmp` reads all its bytes. -/
def matchLit (loader : Loader) (lit : Bytes) (s : Cursor) : Except Fault Bool :=
  match loader with
  | .text => .ok (decide (s.take lit.length = lit))
  | .buffer =>
    if s.length < lit.length then .error .outOfBounds
    else .ok (decide (s.take lit.length = lit))

def parseBool (loader : Loader) (s : Cursor) : Parsed JSON :=
  match matchLit loader (str "true") s with
  | .error f => .error f
  | .ok true => .ok (.boolean true, s.drop 4)
  | .ok false =>
    match matchLit loader (str "false") s with
    | .error f => .error f
    | .ok true => .ok (.boolean false, s.drop 5)
    | .ok false => .ok (.null, s)

def parseNull (loader : Loader) (s : Cursor) : Parsed JSON :=
  match matchLit loader (str "null") s with
  | .error f => .error f
  | .ok isNull =>
    match loader with
    | .text => .ok (.null, if isNull then s.drop 4 else s)
    | .buffer => .ok (.null, if isNull then s else s.drop 4)

/-! ### Values -/

mutual

def parseNext (loader : Loader) (mem : Mem) : Nat → Cursor → Parsed JSON
  | 0, _ => .error .fuel
  | fuel + 1, s =>
    match consumeWs s with
    | .error f => .error f
    | .ok [] => .error .outOfBounds
    | .ok (value :: t) =>
      if value = 91 then
        match consumeWs t with
        | .error f => .error f
        | .ok s => if s.head? = some 93 then .ok (.array [], s.tail) else arrayLoop loader mem fuel [] s
      else if value = 123 then
        match consumeWs t with
        | .error f => .error f
        | .ok s =>
          if s.head? = some 125 then .ok (.object [], s.tail)
          else objectLoop loader mem fuel (.object []) s
      else if value = 34 then parseString mem t
      else if value = 116 ∨ value = 102 then parseBool loader (value :: t)
      else if value = 110 then parseNull loader (value :: t)
      else if IsDigit value ∨ value = 45 then parseNumber (value :: t)
      else .ok (.null, value :: t)

def objectLoop (loader : Loader) (mem : Mem) : Nat → JSON → Cursor → Parsed JSON
  | 0, _, _ => .error .fuel
  | fuel + 1, obj, s =>
    match parseNext loader mem fuel s with
    | .error f => .error f
    | .ok (key, s) =>
      match consumeWs s with
      | .error f => .error f
      | .ok s =>
        if s.head? = some 58 then
          match consumeWs s.tail with
          | .error f => .error f
          | .ok s =>
            match parseNext loader mem fuel s with
            | .error f => .error f
            | .ok (value, s) =>
              match consumeWs s with
              | .error f => .error f
              | .ok s =>
                let obj := obj.put key.toStr value
                if s.head? = some 44 then objectLoop loader mem fuel obj s.tail
                else if s.head? = some 125 then .ok (obj, s.tail)
                else .ok (obj, s)
        else .ok (obj, s)

def arrayLoop (loader : Loader) (mem : Mem) : Nat → List JSON → Cursor → Parsed JSON
  | 0, _, _ => .error .fuel
  | fuel + 1, items, s =>
    match parseNext loader mem fuel s with
    | .error f => .error f
    | .ok (item, s) =>
      match consumeWs s with
      | .error f => .error f
      | .ok s =>
        let items := items ++ [item]
        if s.head? = some 44 then arrayLoop loader mem fuel items s.tail
        else if s.head? = some 93 then .ok (.array items, s.tail)
        else .ok (.array [], s)

end

def fuelFor (s : Cursor) : Nat := 2 * s.length + 1

def load (mem : Mem) (s : Bytes) : Except Fault JSON :=
  if s.length = 0 then .ok .null
  else (parseNext .text mem (fuelFor (s ++ [0])) (s ++ [0])).map Prod.fst

/-- `JSON::Load(const uint8_t *, size_t)`: the size is only tested for zero, `data`
is all that can be read at the pointer. -/
def loadBuffer (mem : Mem) (data : Bytes) (size : Nat) : Except Fault JSON :=
  if size = 0 then .ok .null
  else (parseNext .buffer mem (fuelFor data) data).map Prod.fst

/-! ### The fuel is never used up -/

theorem consumeWs_length {s t : Cursor} (h : consumeWs s = .ok t) : t.length ≤ s.length := by
  induction s with
  | nil => simp [consumeWs] at h
  | cons c s ih =>
    simp only [consumeWs] at h
    split_ifs at h
    · exact (ih h).trans (Nat.le_succ _)
    · cases h
      exact le_rfl

theorem consumeWs_fuel (s : Cursor) : consumeWs s ≠ .error .fuel := by
  induction s with
  | nil => simp [consumeWs]
  | cons c s ih =>
    simp only [consumeWs]
    split_ifs
    · exact ih
    · simp

theorem hexRun_fuel (n : Nat) (s : Cursor) : hexRun n s ≠ .error .fuel := by
  induction n generalizing s with
  | zero => simp [hexRun]
  | succ n ih =>
    cases s with
    | nil => simp [hexRun]
    | cons c t =>
      simp only [hexRun]
      split_ifs
      · exact ih t
      · simp

/-- What every part of the loader does with its cursor: it never grows, and the fuel
fault is never raised. -/
def Settled {α : Type} (n : Nat) (r : Parsed α) : Prop :=
  r ≠ .error .fuel ∧ ∀ a t, r = .ok (a, t) → t.length ≤ n

theorem settled_ok {α : Type} {n : Nat} {a : α} {t : Cursor} (h : t.length ≤ n) :
    Settled n (.ok (a, t)) := by
  refine ⟨by simp, ?_⟩
  intro b u hu
  cases hu
  exact h

theorem settled_error {α : Type} {n : Nat} {f : Fault} (h : f ≠ .fuel) :
    Settled n (.error f : Parsed α) := by
  refine ⟨?_, by simp⟩
  intro he
  cases he
  exact h rfl

theorem Settled.mono {α : Type} {n m : Nat} {r : Parsed α} (h : Settled n r) (hn : n ≤ m) :
    Settled m r :=
  ⟨h.1, fun a t ht => (h.2 a t ht).trans hn⟩

theorem stringLoop_settled (s : Cursor) (val : Bytes) : Settled s.length (stringLoop s val) := by
  fun_induction stringLoop s val with
  | case1 => exact settled_error (by decide)
  | case2 t val => exact settled_ok (by simp)
  | case3 => exact settled_error (by decide)
  | case4 val t' f hf =>
    refine settled_error ?_
    intro he
    exact hexRun_fuel 4 t' (he ▸ hf)
  | case5 => exact settled_ok (by simp)
  | case6 _ _ _ _ _ _ _ _ ih => exact ih.mono (by simp only [List.length_cons]; omega)
  | case7 => exact settled_error (by decide)
  | case8 _ _ _ _ _ ih => exact ih.mono (by simp only [List.length_cons]; omega)
  | case9 c t val h34 h92 ih => exact ih.mono (by simp)

theorem parseString_settled (mem : Mem) (s : Cursor) : Settled s.length (parseString mem s) := by
  have h := stringLoop_settled s []
  unfold parseString
  split
  · rename_i f hf
    exact settled_error fun he => h.1 (he ▸ hf)
  · rename_i t ht
    exact settled_ok (h.2 _ _ ht)
  · rename_i val t ht
    exact settled_ok (h.2 _ _ ht)

theorem mantissa_ok (s : Cursor) (val : Bytes) (dbl : Bool) :
    mantissa s val dbl ≠ .error .fuel ∧
      ∀ v d t, mantissa s val dbl = .ok (v, d, t) → t.length ≤ s.length := by
  fun_induction mantissa s val dbl with
  | case1 => simp
  | case2 c t val dbl h ih => exact ⟨ih.1, fun v d u hu => (ih.2 v d u hu).trans (by simp)⟩
  | case3 t val dbl h ih => exact ⟨ih.1, fun v d u hu => (ih.2 v d u hu).trans (by simp)⟩
  | case4 c t val dbl h h' =>
    refine ⟨by simp, ?_⟩
    intro v d u hu
    cases hu
    exact le_rfl

theorem exponent_settled (s : Cursor) (ex : Bytes) : Settled s.length (exponent s ex) := by
  fun_induction exponent s ex with
  | case1 => exact settled_error (by decide)
  | case2 c t ex h ih => exact ih.mono (by simp)
  | case3 => exact settled_ok le_rfl
  | case4 => exact settled_ok (by simp)

theorem exponentStart_settled (s : Cursor) : Settled s.length (exponentStart s) := by
  cases s with
  | nil => exact settled_error (by decide)
  | cons c t =>
    simp only [exponentStart]
    split_ifs
    · exact (exponent_settled t.tail [45]).mono (by simp; omega)
    · exact (exponent_settled t []).mono (by simp)

theorem numberValue_settled (val ex : Bytes) (dbl : Bool) {s : Cursor} {n : Nat}
    (hs : s.length ≤ n) : Settled n ((numberValue val ex dbl).map fun v => (v, s)) := by
  unfold numberValue
  cases dbl with
  | true =>
    simp only [↓reduceIte]
    split_ifs
    · exact settled_ok hs
    · exact settled_error (by decide)
  | false =>
    simp only [Bool.false_eq_true, ↓reduceIte]
    cases stol val with
    | none => exact settled_error (by decide)
    | some v =>
      dsimp only
      split_ifs
      · exact settled_ok hs
      · exact settled_ok hs

theorem parseNumber_settled (s : Cursor) : Settled s.length (parseNumber s) := by
  have h := mantissa_ok s [] false
  unfold parseNumber
  split
  · rename_i f hf
    exact settled_error fun he => h.1 (he ▸ hf)
  · exact settled_error (by decide)
  · rename_i val dbl c t hm
    have hl := h.2 _ _ _ hm
    simp only [List.length_cons] at hl
    split_ifs
    · have he := exponentStart_settled t
      split
      · rename_i f hf
        exact settled_error fun hh => he.1 (hh ▸ hf)
      · rename_i u hu
        exact settled_ok ((he.2 _ _ hu).trans (by omega))
      · rename_i ex u hu
        have hl' := he.2 _ _ hu
        split
        · exact settled_error (by decide)
        · exact numberValue_settled val ex dbl (by omega)
    · exact numberValue_settled val [] dbl (by simpa using hl)
    · exact settled_ok (by omega)

theorem matchLit_fuel (loader : Loader) (l : Bytes) (s : Cursor) :
    matchLit loader l s ≠ .error .fuel := by
  unfold matchLit
  cases loader with
  | text => exact nofun
  | buffer =>
    dsimp only
    split_ifs
    · exact nofun
    · exact nofun

theorem parseBool_settled (loader : Loader) (s : Cursor) :
    Settled s.length (parseBool loader s) := by
  unfold parseBool
  split
  · rename_i f hf
    exact settled_error fun he => matchLit_fuel _ _ s (he ▸ hf)
  · exact settled_ok (by simp)
  · split
    · rename_i f hf
      exact settled_error fun he => matchLit_fuel _ _ s (he ▸ hf)
    · exact settled_ok (by simp)
    · exact settled_ok le_rfl

theorem parseNull_settled (loader : Loader) (s : Cursor) :
    Settled s.length (parseNull loader s) := by
  unfold parseNull
  split
  · rename_i f hf
    exact settled_error fun he => matchLit_fuel _ _ s (he ▸ hf)
  · split
    · exact settled_ok (by split_ifs <;> simp)
    · exact settled_ok (by split_ifs <;> simp)

theorem length_tail_of_head {s : Cursor} {c : UInt8} (h : s.head? = some c) :
    s.tail.length + 1 = s.length := by
  cases s with
  | nil => simp at h
  | cons d t => simp

/-- The three loops at once, by induction on the fuel: `parseNext` needs `2 * k + 1`
and the two loops `2 * k + 2` for a cursor of length `k`. -/
theorem parse_settled (loader : Loader) (mem : Mem) (fuel : Nat) :
    (∀ s : Cursor, 2 * s.length + 1 ≤ fuel → Settled s.length (parseNext loader mem fuel s)) ∧
    (∀ (s : Cursor) (obj : JSON), 2 * s.length + 2 ≤ fuel →
      Settled s.length (objectLoop loader mem fuel obj s)) ∧
    (∀ (s : Cursor) (items : List JSON), 2 * s.length + 2 ≤ fuel →
      Settled s.length (arrayLoop loader mem fuel items s)) := by
  induction fuel with
  | zero => exact ⟨fun s h => by omega, fun s _ h => by omega, fun s _ h => by omega⟩
  | succ fuel ih =>
    obtain ⟨ihn, iho, iha⟩ := ih
    have ws : ∀ {s : Cursor} {f : Fault}, consumeWs s = .error f → f ≠ .fuel :=
      fun hf he => consumeWs_fuel _ (he ▸ hf)
    refine ⟨?_, ?_, ?_⟩
    · intro s hs
      unfold parseNext
      split
      · exact settled_error (ws ‹_›)
      · exact settled_error (by decide)
      · rename_i value t hw
        have hl := consumeWs_length hw
        simp only [List.length_cons] at hl
        split_ifs with h91 h123 h34 htf hn hd
        · split
          · exact settled_error (ws ‹_›)
          · rename_i u hu
            have hl' := consumeWs_length hu
            split_ifs
            · exact settled_ok (by simp; omega)
            · exact (iha u [] (by omega)).mono (by omega)
        · split
          · exact settled_error (ws ‹_›)
          · rename_i u hu
            have hl' := consumeWs_length hu
            split_ifs
            · exact settled_ok (by simp; omega)
            · exact (iho u (.object []) (by omega)).mono (by omega)
        · exact (parseString_settled mem t).mono (by omega)
        · exact (parseBool_settled loader (value :: t)).mono (by simpa using hl)
        · exact (parseNull_settled loader (value :: t)).mono (by simpa using hl)
        · exact (parseNumber_settled (value :: t)).mono (by simpa using hl)
        · exact settled_ok (by simpa using hl)
    · intro s obj hs
      have hkey := ihn s (by omega)
      unfold objectLoop
      split
      · rename_i f hf
        exact settled_error fun he => hkey.1 (he ▸ hf)
      · rename_i key s1 h1
        have l1 := hkey.2 _ _ h1
        split
        · exact settled_error (ws ‹_›)
        · rename_i s2 h2
          have l2 := consumeWs_length h2
          split_ifs with hc
          · have lt := length_tail_of_head hc
            split
            · exact settled_error (ws ‹_›)
            · rename_i s3 h3
              have l3 := consumeWs_length h3
              have hval := ihn s3 (by omega)
              split
              · rename_i f hf
                exact settled_error fun he => hval.1 (he ▸ hf)
              · rename_i value s4 h4
                have l4 := hval.2 _ _ h4
                split
                · exact settled_error (ws ‹_›)
                · rename_i s5 h5
                  have l5 := consumeWs_length h5
                  dsimp only
                  split_ifs with hcomma hclose
                  · have lt5 := length_tail_of_head hcomma
                    exact (iho s5.tail _ (by omega)).mono (by omega)
                  · exact settled_ok (by simp; omega)
                  · exact settled_ok (by omega)
          · exact settled_ok (by omega)
    · intro s items hs
      have hitem := ihn s (by omega)
      unfold arrayLoop
      split
      · rename_i f hf
        exact settled_error fun he => hitem.1 (he ▸ hf)
      · rename_i item s1 h1
        have l1 := hitem.2 _ _ h1
        split
        · exact settled_error (ws ‹_›)
        · rename_i s2 h2
          have l2 := consumeWs_length h2
          dsimp only
          split_ifs with hcomma hclose
          · have lt2 := length_tail_of_head hcomma
            exact (iha s2.tail _ (by omega)).mono (by omega)
          · exact settled_ok (by simp; omega)
          · exact settled_ok (by omega)

theorem parseNext_fuel (loader : Loader) (mem : Mem) (s : Cursor) :
    parseNext loader mem (fuelFor s) s ≠ .error .fuel :=
  ((parse_settled loader mem (fuelFor s)).1 s le_rfl).1

theorem load_fuel (mem : Mem) (s : Bytes) : load mem s ≠ .error .fuel := by
  unfold load
  split_ifs
  · simp
  · have h := parseNext_fuel .text mem (s ++ [0])
    cases hp : parseNext .text mem (fuelFor (s ++ [0])) (s ++ [0]) with
    | error f => simpa [Except.map, hp] using h
    | ok r => simp [Except.map]

theorem loadBuffer_fuel (mem : Mem) (data : Bytes) (size : Nat) :
    loadBuffer mem data size ≠ .error .fuel := by
  unfold loadBuffer
  split_ifs
  · simp
  · have h := parseNext_fuel .buffer mem data
    cases hp : parseNext .buffer mem (fuelFor data) data with
    | error f => simpa [Except.map, hp] using h
    | ok r => simp [Except.map]

/-! ### Fields of a document -/

open OrderedMap

theorem put_sorted {j : JSON} (h : Sorted ltBytes j.objectRange) (k : Bytes) (v : JSON) :
    Sorted ltBytes (j.put k v).objectRange := by
  cases j with
  | object m => exact h.insertKey isOrder_ltBytes k v
  | _ => exact List.pairwise_singleton _ _

section
variable {loader : Loader} {mem : Mem} {fuel : Nat} {s t : Cursor} {j : JSON}

theorem parseString_objectRange (h : parseString mem s = .ok (j, t)) : j.objectRange = [] := by
  unfold parseString at h
  split at h
  · cases h
  · cases h
    rfl
  · cases h
    unfold stringValue
    split_ifs
    · split
      · rfl
      · rfl
    · rfl

theorem numberValue_objectRange {val ex : Bytes} {dbl : Bool}
    (h : numberValue val ex dbl = .ok j) : j.objectRange = [] := by
  unfold numberValue at h
  split_ifs at h
  · cases h
    rfl
  · split at h
    · cases h
    · cases h
      rfl
  · split at h
    · cases h
    · cases h
      rfl

theorem parseNumber_objectRange (h : parseNumber s = .ok (j, t)) : j.objectRange = [] := by
  have hmap : ∀ {val ex : Bytes} {dbl : Bool} {u : Cursor},
      (numberValue val ex dbl).map (fun v => (v, u)) = .ok (j, t) → j.objectRange = [] := by
    intro val ex dbl u hm
    cases hv : numberValue val ex dbl with
    | error f =>
      rw [hv] at hm
      cases hm
    | ok v =>
      rw [hv] at hm
      cases hm
      exact numberValue_objectRange hv
  unfold parseNumber at h
  split at h
  · cases h
  · cases h
  · split_ifs at h
    · split at h
      · cases h
      · cases h
        rfl
      · split at h
        · cases h
        · exact hmap h
    · exact hmap h
    · cases h
      rfl

theorem parseBool_objectRange (h : parseBool loader s = .ok (j, t)) : j.objectRange = [] := by
  unfold parseBool at h
  split at h
  · cases h
  · cases h
    rfl
  · split at h
    · cases h
    · cases h
      rfl
    · cases h
      rfl

theorem parseNull_objectRange (h : parseNull loader s = .ok (j, t)) : j.objectRange = [] := by
  unfold parseNull at h
  split at h
  · cases h
  · cases loader with
    | text =>
      cases h
      rfl
    | buffer =>
      cases h
      rfl

theorem arrayLoop_objectRange {items : List JSON}
    (h : arrayLoop loader mem fuel items s = .ok (j, t)) : j.objectRange = [] := by
  induction fuel generalizing items s with
  | zero => simp [arrayLoop] at h
  | succ fuel ih =>
    unfold arrayLoop at h
    split at h
    · cases h
    · split at h
      · cases h
      · dsimp only at h
        split_ifs at h
        · exact ih h
        · cases h
          rfl
        · cases h
          rfl

theorem objectLoop_sorted {obj : JSON} (h : objectLoop loader mem fuel obj s = .ok (j, t))
    (hobj : Sorted ltBytes obj.objectRange) : Sorted ltBytes j.objectRange := by
  induction fuel generalizing obj s with
  | zero => simp [objectLoop] at h
  | succ fuel ih =>
    unfold objectLoop at h
    split at h
    · cases h
    · split at h
      · cases h
      · split_ifs at h
        · split at h
          · cases h
          · split at h
            · cases h
            · split at h
              · cases h
              · have hput := put_sorted hobj
                dsimp only at h
                split_ifs at h
                · exact ih h (hput _ _)
                · cases h
                  exact hput _ _
                · cases h
                  exact hput _ _
        · cases h
          exact hobj

theorem parseNext_sorted (h : parseNext loader mem fuel s = .ok (j, t)) :
    Sorted ltBytes j.objectRange := by
  have hflat : ∀ {j : JSON}, j.objectRange = [] → Sorted ltBytes j.objectRange := by
    intro j hj
    rw [hj]
    exact sorted_nil _
  cases fuel with
  | zero => simp [parseNext] at h
  | succ fuel =>
    unfold parseNext at h
    split at h
    · cases h
    · cases h
    · split_ifs at h
      · split at h
        · cases h
        · split_ifs at h
          · cases h
            exact sorted_nil _
          · exact hflat (arrayLoop_objectRange h)
      · split at h
        · cases h
        · split_ifs at h
          · cases h
            exact sorted_nil _
          · exact objectLoop_sorted h (sorted_nil _)
      · exact hflat (parseString_objectRange h)
      · exact hflat (parseBool_objectRange h)
      · exact hflat (parseNull_objectRange h)
      · exact hflat (parseNumber_objectRange h)
      · cases h
        exact sorted_nil _

theorem load_sorted {text : Bytes} (h : load mem text = .ok j) : Sorted ltBytes j.objectRange := by
  unfold load at h
  split_ifs at h
  · cases h
    exact sorted_nil _
  · obtain ⟨⟨v, u⟩, hp, hv⟩ : ∃ r, parseNext .text mem (fuelFor (text ++ [0])) (text ++ [0]) = .ok r ∧
        r.1 = j := by
      cases hp : parseNext .text mem (fuelFor (text ++ [0])) (text ++ [0]) with
      | error f =>
        rw [hp] at h
        cases h
      | ok r =>
        rw [hp] at h
        cases h
        exact ⟨r, rfl, rfl⟩
    cases hv
    exact parseNext_sorted hp

end

end CrustSworker.JsonParse

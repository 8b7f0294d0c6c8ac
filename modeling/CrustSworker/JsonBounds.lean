import CrustSworker.JsonLoaders

/-!
# Inputs that the loader does not read past

The loader looks for the end of what it has opened and never at the size of the input. An input
is read inside its bounds exactly when what opens in it also ends in it, in the sense of the
grammar below. The grammar has the loader's own view of malformed text: a bad escape ends a
string, a number takes the character that breaks it, a missing separator ends an object or array.
-/

namespace CrustSworker.JsonBounds

open JsonParse JsonLoaders Metadata

/-! ### The grammar -/

def Behind (s : Cursor) (c : UInt8) (t : Cursor) : Prop :=
  ∃ w, s = w ++ c :: t ∧ (∀ d ∈ w, isSpace d = true) ∧ isSpace c = false

inductive StringExtent : Cursor → Cursor → Prop
  | close (t : Cursor) : StringExtent (34 :: t) t
  | char {c : UInt8} {t r : Cursor} (quote : c ≠ 34) (slash : c ≠ 92) (tail : StringExtent t r) :
      StringExtent (c :: t) r
  | escape {e : UInt8} {t r : Cursor} (plain : e ≠ 117) (tail : StringExtent t r) :
      StringExtent (92 :: e :: t) r
  | unicode {hs t r : Cursor} (hex : ∀ h ∈ hs, isHexDigit h = true) (four : hs.length = 4)
      (tail : StringExtent t r) : StringExtent (92 :: 117 :: (hs ++ t)) r
  | badUnicode {hs t : Cursor} {c : UInt8} (hex : ∀ h ∈ hs, isHexDigit h = true)
      (short : hs.length < 4) (bad : isHexDigit c = false) :
      StringExtent (92 :: 117 :: (hs ++ c :: t)) (117 :: (hs ++ c :: t))

def MantissaChar (c : UInt8) : Prop := c = 45 ∨ c = 46 ∨ IsDigit c

instance (c : UInt8) : Decidable (MantissaChar c) := inferInstanceAs (Decidable (_ ∨ _))

/-- `std::stod` takes a mantissa with a point in it, `std::stol` any other. -/
def converts (m : Bytes) : Bool := if 46 ∈ m then stodOk m else (stol m).isSome

/-- Behind the `e` one character is dropped; behind a minus sign one more is. -/
inductive ExponentSign : Cursor → Bytes → Cursor → Prop
  | plain {d : UInt8} (s : Cursor) (sign : d ≠ 45) : ExponentSign (d :: s) [] s
  | minus (d : UInt8) (s : Cursor) : ExponentSign (45 :: d :: s) [45] s

/-- A number, to what follows it; `none` where the conversion throws. -/
inductive NumberExtent : Cursor → Option Cursor → Prop
  | plain {m t : Cursor} {c : UInt8} (mantissa : ∀ d ∈ m, MantissaChar d)
      (ends : endsNumber c = true) :
      NumberExtent (m ++ c :: t) (if converts m then some (c :: t) else none)
  | junk {m t : Cursor} {c : UInt8} (mantissa : ∀ d ∈ m, MantissaChar d) (stop : ¬ MantissaChar c)
      (exp : ¬ (c = 69 ∨ c = 101)) (ends : endsNumber c = false) :
      NumberExtent (m ++ c :: t) (some t)
  | exponent {m t ds u : Cursor} {e c : UInt8} {sign : Bytes}
      (mantissa : ∀ d ∈ m, MantissaChar d) (exp : e = 69 ∨ e = 101)
      (start : ExponentSign t sign (ds ++ c :: u)) (digits : ∀ d ∈ ds, IsDigit d)
      (ends : endsNumber c = true) :
      NumberExtent (m ++ e :: t)
        (if (stol (sign ++ ds)).isSome && converts m then some (c :: u) else none)
  | badExponent {m t ds u : Cursor} {e c : UInt8} {sign : Bytes}
      (mantissa : ∀ d ∈ m, MantissaChar d) (exp : e = 69 ∨ e = 101)
      (start : ExponentSign t sign (ds ++ c :: u)) (digits : ∀ d ∈ ds, IsDigit d)
      (stop : ¬ IsDigit c) (ends : endsNumber c = false) :
      NumberExtent (m ++ e :: t) (some u)

inductive BoolExtent (loader : Loader) : Cursor → Cursor → Prop
  | isTrue (r : Cursor) : BoolExtent loader (str "true" ++ r) r
  | isFalse (r : Cursor) : BoolExtent loader (str "false" ++ r) r
  | other {s : Cursor} (long : loader = .buffer → 5 ≤ s.length) (notTrue : ¬ str "true" <+: s)
      (notFalse : ¬ str "false" <+: s) : BoolExtent loader s s

inductive NullExtent : Loader → Cursor → Cursor → Prop
  | text (r : Cursor) : NullExtent .text (str "null" ++ r) r
  | textOther {s : Cursor} (other : ¬ str "null" <+: s) : NullExtent .text s s
  | buffer (r : Cursor) : NullExtent .buffer (str "null" ++ r) (str "null" ++ r)
  | bufferOther {lit r : Cursor} (four : lit.length = 4) (other : lit ≠ str "null") :
      NullExtent .buffer (lit ++ r) r

inductive Part where
  | value
  | items
  | fields

def Opens (c : UInt8) : Prop :=
  c = 91 ∨ c = 123 ∨ c = 34 ∨ (c = 116 ∨ c = 102) ∨ c = 110 ∨ (IsDigit c ∨ c = 45)

/-- A value, or the rest of an array or object, to what follows it. -/
inductive Extent (loader : Loader) : Part → Cursor → Option Cursor → Prop
  | emptyArray {s t u : Cursor} (start : Behind s 91 t) (close : Behind t 93 u) :
      Extent loader .value s (some u)
  | array {s t u : Cursor} {c : UInt8} {r : Option Cursor} (start : Behind s 91 t)
      (next : Behind t c u) (first : c ≠ 93) (items : Extent loader .items (c :: u) r) :
      Extent loader .value s r
  | emptyObject {s t u : Cursor} (start : Behind s 123 t) (close : Behind t 125 u) :
      Extent loader .value s (some u)
  | object {s t u : Cursor} {c : UInt8} {r : Option Cursor} (start : Behind s 123 t)
      (next : Behind t c u) (first : c ≠ 125) (fields : Extent loader .fields (c :: u) r) :
      Extent loader .value s r
  | string {s t r : Cursor} (start : Behind s 34 t) (string : StringExtent t r) :
      Extent loader .value s (some r)
  | boolean {s t r : Cursor} {c : UInt8} (start : Behind s c t) (head : c = 116 ∨ c = 102)
      (boolean : BoolExtent loader (c :: t) r) : Extent loader .value s (some r)
  | null {s t r : Cursor} (start : Behind s 110 t) (null : NullExtent loader (110 :: t) r) :
      Extent loader .value s (some r)
  | number {s t : Cursor} {c : UInt8} {r : Option Cursor} (start : Behind s c t)
      (head : IsDigit c ∨ c = 45) (number : NumberExtent (c :: t) r) : Extent loader .value s r
  | other {s t : Cursor} {c : UInt8} (start : Behind s c t) (head : ¬ Opens c) :
      Extent loader .value s (some (c :: t))
  | itemThrows {s : Cursor} (item : Extent loader .value s none) : Extent loader .items s none
  | itemNext {s t u : Cursor} {r : Option Cursor} (item : Extent loader .value s (some t))
      (comma : Behind t 44 u) (items : Extent loader .items u r) : Extent loader .items s r
  | itemLast {s t u : Cursor} (item : Extent loader .value s (some t)) (close : Behind t 93 u) :
      Extent loader .items s (some u)
  | itemStop {s t u : Cursor} {c : UInt8} (item : Extent loader .value s (some t))
      (next : Behind t c u) (comma : c ≠ 44) (close : c ≠ 93) :
      Extent loader .items s (some (c :: u))
  | keyThrows {s : Cursor} (key : Extent loader .value s none) : Extent loader .fields s none
  | keyStop {s t u : Cursor} {c : UInt8} (key : Extent loader .value s (some t))
      (next : Behind t c u) (colon : c ≠ 58) : Extent loader .fields s (some (c :: u))
  | fieldThrows {s t u : Cursor} (key : Extent loader .value s (some t)) (colon : Behind t 58 u)
      (value : Extent loader .value u none) : Extent loader .fields s none
  | fieldNext {s t u v x : Cursor} {r : Option Cursor} (key : Extent loader .value s (some t))
      (colon : Behind t 58 u) (value : Extent loader .value u (some v)) (comma : Behind v 44 x)
      (fields : Extent loader .fields x r) : Extent loader .fields s r
  | fieldLast {s t u v x : Cursor} (key : Extent loader .value s (some t)) (colon : Behind t 58 u)
      (value : Extent loader .value u (some v)) (close : Behind v 125 x) :
      Extent loader .fields s (some x)
  | fieldStop {s t u v x : Cursor} {c : UInt8} (key : Extent loader .value s (some t))
      (colon : Behind t 58 u) (value : Extent loader .value u (some v)) (next : Behind v c x)
      (comma : c ≠ 44) (close : c ≠ 125) : Extent loader .fields s (some (c :: x))

/-! ### The loader on the grammar -/

/-- The loader stops in front of `r`, or an exception ends it. -/
def Stops {α : Type} (r : Option Cursor) (res : Parsed α) : Prop :=
  match r with
  | some t => ∃ a, res = .ok (a, t)
  | none => res = .error .badNumber

/-- The loader comes to an end, with a value or an exception, and has read only its input. -/
def InBounds {α : Type} (res : Except Fault α) : Prop :=
  res ≠ .error .outOfBounds ∧ res ≠ .error .fuel

theorem Stops.inBounds {α : Type} {r : Option Cursor} {res : Parsed α} (h : Stops r res) :
    InBounds res := by
  cases r with
  | none =>
    obtain rfl : res = .error .badNumber := h
    exact ⟨nofun, nofun⟩
  | some t =>
    obtain ⟨a, rfl⟩ := h
    exact ⟨nofun, nofun⟩

/-- The loader runs out of its input or of fuel, or it stops where `E` says. -/
def Traced {α : Type} (E : Option Cursor → Prop) (res : Parsed α) : Prop :=
  res = .error .outOfBounds ∨ res = .error .fuel ∨ ∃ r, E r ∧ Stops r res

theorem Traced.imp {α : Type} {E F : Option Cursor → Prop} {res : Parsed α} (h : Traced E res)
    (himp : ∀ r, E r → F r) : Traced F res := by
  refine h.imp_right (Or.imp_right ?_)
  rintro ⟨r, hr, hstop⟩
  exact ⟨r, himp r hr, hstop⟩

theorem Traced.stop {α : Type} {E : Option Cursor → Prop} {res : Parsed α} {r : Option Cursor}
    (he : E r) (hr : Stops r res) : Traced E res := .inr (.inr ⟨r, he, hr⟩)

theorem split_at (p : UInt8 → Prop) [DecidablePred p] (s : Cursor) :
    (∀ d ∈ s, p d) ∨ ∃ m c t, s = m ++ c :: t ∧ (∀ d ∈ m, p d) ∧ ¬ p c := by
  induction s with
  | nil => exact .inl fun d hd => absurd hd List.not_mem_nil
  | cons d s ih =>
    by_cases hd : p d
    · rcases ih with hall | ⟨m, c, t, rfl, hm, hc⟩
      · exact .inl (List.forall_mem_cons.mpr ⟨hd, hall⟩)
      · exact .inr ⟨d :: m, c, t, rfl, List.forall_mem_cons.mpr ⟨hd, hm⟩, hc⟩
    · exact .inr ⟨[], d, s, rfl, fun e he => absurd he List.not_mem_nil, hd⟩

theorem Behind.consumeWs {s t : Cursor} {c : UInt8} (h : Behind s c t) :
    consumeWs s = .ok (c :: t) := by
  obtain ⟨w, rfl, hw, hc⟩ := h
  induction w with
  | nil => exact consumeWs_cons hc t
  | cons d w ih =>
    rw [List.cons_append, JsonParse.consumeWs, if_pos (hw d List.mem_cons_self),
      ih fun e he => hw e (List.mem_cons_of_mem _ he)]

theorem Behind.consumed {s t : Cursor} {c : UInt8} (h : Behind s c t) :
    JsonParse.consumeWs (c :: t) = .ok (c :: t) := by
  obtain ⟨w, -, -, hc⟩ := h
  exact consumeWs_cons hc t

theorem consumeWs_cases (s : Cursor) :
    consumeWs s = .error .outOfBounds ∨ ∃ c t, Behind s c t ∧ consumeWs s = .ok (c :: t) := by
  rcases split_at (fun d => isSpace d = true) s with hall | ⟨w, c, t, rfl, hw, hc⟩
  · left
    induction s with
    | nil => rfl
    | cons d s ih =>
      rw [consumeWs, if_pos (hall d List.mem_cons_self), ih fun e he => hall e (List.mem_cons_of_mem _ he)]
  · have hb : Behind (w ++ c :: t) c t := ⟨w, rfl, hw, Bool.eq_false_iff.mpr hc⟩
    exact .inr ⟨c, t, hb, hb.consumeWs⟩

/-! ### Strings -/

theorem hexRun_append {hs : Cursor} (hex : ∀ h ∈ hs, isHexDigit h = true) (n : Nat) (t : Cursor) :
    hexRun (hs.length + n) (hs ++ t) = hexRun n t := by
  induction hs with
  | nil => rw [List.length_nil, Nat.zero_add, List.nil_append]
  | cons h hs ih =>
    rw [List.length_cons, Nat.add_right_comm, List.cons_append, hexRun,
      if_pos (hex h List.mem_cons_self), ih fun e he => hex e (List.mem_cons_of_mem _ he)]

theorem hexRun_cases (n : Nat) (t : Cursor) :
    hexRun n t = .error .outOfBounds ∨
    (∃ hs u, t = hs ++ u ∧ (∀ h ∈ hs, isHexDigit h = true) ∧ hs.length = n ∧ hexRun n t = .ok true) ∨
    ∃ hs c u, t = hs ++ c :: u ∧ (∀ h ∈ hs, isHexDigit h = true) ∧ hs.length < n ∧
      isHexDigit c = false ∧ hexRun n t = .ok false := by
  induction n generalizing t with
  | zero => exact .inr (.inl ⟨[], t, rfl, List.forall_mem_nil _, rfl, rfl⟩)
  | succ n ih =>
    cases t with
    | nil => exact .inl rfl
    | cons c t =>
      rw [hexRun]
      cases hc : isHexDigit c with
      | false => exact .inr (.inr ⟨[], c, t, rfl, List.forall_mem_nil _, Nat.succ_pos n, hc, rfl⟩)
      | true =>
        rw [if_pos rfl]
        rcases ih t with h | ⟨hs, u, rfl, hex, hlen, h⟩ | ⟨hs, d, u, rfl, hex, hlen, hd, h⟩
        · exact .inl h
        · exact .inr (.inl ⟨c :: hs, u, rfl, List.forall_mem_cons.mpr ⟨hc, hex⟩,
            congrArg Nat.succ hlen, h⟩)
        · exact .inr (.inr ⟨c :: hs, d, u, rfl, List.forall_mem_cons.mpr ⟨hc, hex⟩,
            Nat.succ_lt_succ hlen, hd, h⟩)

theorem stringLoop_unicode {hs : Cursor} (hex : ∀ h ∈ hs, isHexDigit h = true)
    (four : hs.length = 4) (t : Cursor) (val : Bytes) :
    stringLoop (92 :: 117 :: (hs ++ t)) val = stringLoop t (val ++ 92 :: 117 :: hs) := by
  have hrun : hexRun 4 (hs ++ t) = .ok true := by
    rw [← four]
    exact hexRun_append hex 0 t
  obtain ⟨h₁, h₂, h₃, h₄, rfl⟩ := List.length_eq_four.mp four
  rw [stringLoop.eq_def]
  dsimp only
  rw [if_neg (by decide), if_pos rfl, if_pos rfl, hrun]
  rfl

theorem stringLoop_badUnicode {hs : Cursor} (hex : ∀ h ∈ hs, isHexDigit h = true)
    (short : hs.length < 4) {c : UInt8} (bad : isHexDigit c = false) (t : Cursor) (val : Bytes) :
    stringLoop (92 :: 117 :: (hs ++ c :: t)) val = .ok (none, 117 :: (hs ++ c :: t)) := by
  have hrun : hexRun 4 (hs ++ c :: t) = .ok false := by
    obtain ⟨n, hn⟩ : ∃ n, 4 = hs.length + (n + 1) := ⟨3 - hs.length, by omega⟩
    rw [hn, hexRun_append hex, hexRun, bad]
    rfl
  rw [stringLoop.eq_def]
  dsimp only
  rw [if_neg (by decide), if_pos rfl, if_pos rfl, hrun]

theorem stringLoop_escape {e : UInt8} (he : e ≠ 117) (t : Cursor) (val : Bytes) :
    stringLoop (92 :: e :: t) val = stringLoop t (val ++ [unescape e]) := by
  rw [stringLoop.eq_def]
  dsimp only
  rw [if_neg (by decide), if_pos rfl, if_neg he]

theorem stringLoop_char {c : UInt8} (quote : c ≠ 34) (slash : c ≠ 92) (t : Cursor) (val : Bytes) :
    stringLoop (c :: t) val = stringLoop t (val ++ [c]) := by
  rw [stringLoop.eq_def]
  dsimp only
  rw [if_neg quote, if_neg slash]

theorem stringLoop_close (t : Cursor) (val : Bytes) : stringLoop (34 :: t) val = .ok (some val, t) := by
  rw [stringLoop.eq_def]
  dsimp only
  rw [if_pos rfl]

theorem StringExtent.stops {s r : Cursor} (h : StringExtent s r) (val : Bytes) :
    ∃ v, stringLoop s val = .ok (v, r) := by
  induction h generalizing val with
  | close t => exact ⟨_, stringLoop_close t val⟩
  | @char c t _ quote slash _ ih =>
    rw [stringLoop_char quote slash t val]
    exact ih _
  | @escape e t _ plain _ ih =>
    rw [stringLoop_escape plain t val]
    exact ih _
  | @unicode hs t _ hex four _ ih =>
    rw [stringLoop_unicode hex four t val]
    exact ih _
  | @badUnicode hs t c hex short bad => exact ⟨_, stringLoop_badUnicode hex short bad t val⟩

theorem stringLoop_traced (s : Cursor) (val : Bytes) :
    stringLoop s val = .error .outOfBounds ∨
      ∃ r, StringExtent s r ∧ ∃ v, stringLoop s val = .ok (v, r) := by
  induction hn : s.length using Nat.strongRecOn generalizing s val with
  | ind n ih =>
    subst hn
    have step : ∀ {t : Cursor} {val' : Bytes}, t.length < s.length →
        stringLoop s val = stringLoop t val' → (∀ r, StringExtent t r → StringExtent s r) →
        stringLoop s val = .error .outOfBounds ∨
          ∃ r, StringExtent s r ∧ ∃ v, stringLoop s val = .ok (v, r) := by
      intro t val' hlt heq hext
      rw [heq]
      refine (ih t.length hlt t val' rfl).imp_right ?_
      rintro ⟨r, hr, hv⟩
      exact ⟨r, hext r hr, hv⟩
    cases s with
    | nil => exact .inl rfl
    | cons c t =>
      by_cases h34 : c = 34
      · subst h34
        exact .inr ⟨t, .close t, _, stringLoop_close t val⟩
      · by_cases h92 : c = 92
        · subst h92
          cases t with
          | nil => exact .inl rfl
          | cons e u =>
            by_cases h117 : e = 117
            · subst h117
              rcases hexRun_cases 4 u with h | ⟨hs, v, rfl, hex, four, -⟩ |
                  ⟨hs, d, v, rfl, hex, short, bad, -⟩
              · left
                rw [stringLoop.eq_def]
                dsimp only
                rw [if_neg (by decide), if_pos rfl, if_pos rfl, h]
              · refine step ?_ (stringLoop_unicode hex four v val) fun r => .unicode hex four
                simp only [List.length_cons, List.length_append]
                omega
              · exact .inr ⟨_, .badUnicode hex short bad, _, stringLoop_badUnicode hex short bad v val⟩
            · refine step ?_ (stringLoop_escape h117 u val) fun r => .escape h117
              simp only [List.length_cons]
              omega
        · exact step (Nat.lt_succ_self _) (stringLoop_char h34 h92 t val) fun r => .char h34 h92

/-! ### Numbers -/

theorem mantissa_append {m : Bytes} (hm : ∀ d ∈ m, MantissaChar d) (t : Cursor) (val : Bytes)
    (dbl : Bool) : mantissa (m ++ t) val dbl = mantissa t (val ++ m) (dbl || decide (46 ∈ m)) := by
  induction m generalizing val dbl with
  | nil => simp
  | cons d m ih =>
    have htail : ∀ e ∈ m, MantissaChar e := fun e he => hm e (List.mem_cons_of_mem _ he)
    rw [List.cons_append, mantissa]
    by_cases hd : d = 45 ∨ IsDigit d
    · have hpoint : d ≠ 46 := by
        rintro rfl
        exact absurd hd (by decide)
      rw [if_pos hd, ih htail, List.append_assoc, List.singleton_append]
      simp [hpoint.symm]
    · have hpoint : d = 46 := by
        rcases hm d List.mem_cons_self with h | h | h
        · exact absurd (.inl h) hd
        · exact h
        · exact absurd (.inr h) hd
      rw [if_neg hd, if_pos hpoint, ih htail, List.append_assoc, List.singleton_append]
      simp [hpoint]

theorem mantissa_stop {c : UInt8} (hc : ¬ MantissaChar c) (t : Cursor) (val : Bytes) (dbl : Bool) :
    mantissa (c :: t) val dbl = .ok (val, dbl, c :: t) := by
  rw [mantissa, if_neg fun h => hc (h.imp_right .inr), if_neg fun h => hc (.inr (.inl h))]

theorem mantissa_all {m : Bytes} (hm : ∀ d ∈ m, MantissaChar d) (val : Bytes) (dbl : Bool) :
    mantissa m val dbl = .error .outOfBounds := by
  have h := mantissa_append hm [] val dbl
  rwa [List.append_nil] at h

theorem exponent_append {ds : Bytes} (hds : ∀ d ∈ ds, IsDigit d) (t : Cursor) (ex : Bytes) :
    exponent (ds ++ t) ex = exponent t (ex ++ ds) := by
  induction ds generalizing ex with
  | nil => rw [List.nil_append, List.append_nil]
  | cons d ds ih =>
    rw [List.cons_append, exponent, if_pos (hds d List.mem_cons_self),
      ih fun e he => hds e (List.mem_cons_of_mem _ he), List.append_assoc, List.singleton_append]

theorem exponent_stop {c : UInt8} (hc : ¬ IsDigit c) (t : Cursor) (ex : Bytes) :
    exponent (c :: t) ex = if endsNumber c then .ok (some ex, c :: t) else .ok (none, t) := by
  rw [exponent, if_neg hc]

theorem exponent_all {ds : Bytes} (hds : ∀ d ∈ ds, IsDigit d) (ex : Bytes) :
    exponent ds ex = .error .outOfBounds := by
  have h := exponent_append hds [] ex
  rwa [List.append_nil] at h

theorem ExponentSign.start {t s : Cursor} {sign : Bytes} (h : ExponentSign t sign s) :
    exponentStart t = exponent s sign := by
  cases h with
  | plain s sign => rw [exponentStart, if_neg sign]
  | minus d s => rfl

theorem numberValue_stops {m ex : Bytes} {c : UInt8} {t : Cursor} :
    Stops (if converts m then some (c :: t) else none)
      ((numberValue m ex (decide (46 ∈ m))).map fun v => (v, c :: t)) := by
  unfold numberValue converts
  by_cases hpoint : 46 ∈ m
  · rw [if_pos hpoint, if_pos (decide_eq_true hpoint)]
    cases stodOk m with
    | true => exact ⟨_, rfl⟩
    | false => rfl
  · rw [if_neg hpoint, decide_eq_false hpoint, if_neg Bool.false_ne_true]
    cases hm : stol m with
    | none => rfl
    | some v =>
      rw [Option.isSome_some, if_pos rfl]
      dsimp only
      by_cases hex : ex = []
      · rw [if_pos hex]
        exact ⟨_, rfl⟩
      · rw [if_neg hex]
        exact ⟨_, rfl⟩

section
variable {m t : Cursor} {c : UInt8}

theorem not_mantissaChar_of_exp (h : c = 69 ∨ c = 101) : ¬ MantissaChar c := by
  rcases h with rfl | rfl <;> decide

theorem not_mantissaChar_of_ends (h : endsNumber c = true) : ¬ MantissaChar c := by
  obtain ⟨hdigit, hpoint, -⟩ := endsNumber_stops h
  rintro (h | h | h)
  · exact hdigit (.inl h)
  · exact hpoint h
  · exact hdigit (.inr h)

theorem not_digit_of_ends (h : endsNumber c = true) : ¬ IsDigit c := fun hd =>
  not_mantissaChar_of_ends h (.inr (.inr hd))

theorem mantissa_split (hm : ∀ d ∈ m, MantissaChar d) (hc : ¬ MantissaChar c) :
    mantissa (m ++ c :: t) [] false = .ok (m, decide (46 ∈ m), c :: t) := by
  rw [mantissa_append hm, mantissa_stop hc, List.nil_append, Bool.false_or]

theorem parseNumber_plain (hm : ∀ d ∈ m, MantissaChar d) (ends : endsNumber c = true) :
    parseNumber (m ++ c :: t) =
      (numberValue m [] (decide (46 ∈ m))).map fun v => (v, c :: t) := by
  rw [parseNumber, mantissa_split hm (not_mantissaChar_of_ends ends)]
  dsimp only
  rw [if_neg (endsNumber_stops ends).2.2, if_pos ends]

theorem parseNumber_junk (hm : ∀ d ∈ m, MantissaChar d) (stop : ¬ MantissaChar c)
    (exp : ¬ (c = 69 ∨ c = 101)) (ends : endsNumber c = false) :
    parseNumber (m ++ c :: t) = .ok (.null, t) := by
  rw [parseNumber, mantissa_split hm stop]
  dsimp only
  rw [if_neg exp, if_neg (Bool.eq_false_iff.mp ends)]

theorem parseNumber_exp_error (hm : ∀ d ∈ m, MantissaChar d) (exp : c = 69 ∨ c = 101) {f : Fault}
    (h : exponentStart t = .error f) : parseNumber (m ++ c :: t) = .error f := by
  rw [parseNumber, mantissa_split hm (not_mantissaChar_of_exp exp)]
  dsimp only
  rw [if_pos exp, h]

theorem parseNumber_exp_null (hm : ∀ d ∈ m, MantissaChar d) (exp : c = 69 ∨ c = 101) {u : Cursor}
    (h : exponentStart t = .ok (none, u)) : parseNumber (m ++ c :: t) = .ok (.null, u) := by
  rw [parseNumber, mantissa_split hm (not_mantissaChar_of_exp exp)]
  dsimp only
  rw [if_pos exp, h]

theorem parseNumber_exp_throws (hm : ∀ d ∈ m, MantissaChar d) (exp : c = 69 ∨ c = 101)
    {ex : Bytes} {u : Cursor} (h : exponentStart t = .ok (some ex, u)) (hex : stol ex = none) :
    parseNumber (m ++ c :: t) = .error .badNumber := by
  rw [parseNumber, mantissa_split hm (not_mantissaChar_of_exp exp)]
  dsimp only
  rw [if_pos exp, h]
  dsimp only
  rw [hex]

theorem parseNumber_exp (hm : ∀ d ∈ m, MantissaChar d) (exp : c = 69 ∨ c = 101) {ex : Bytes}
    {u : Cursor} {v : Int} (h : exponentStart t = .ok (some ex, u)) (hex : stol ex = some v) :
    parseNumber (m ++ c :: t) = (numberValue m ex (decide (46 ∈ m))).map fun v => (v, u) := by
  rw [parseNumber, mantissa_split hm (not_mantissaChar_of_exp exp)]
  dsimp only
  rw [if_pos exp, h]
  dsimp only
  rw [hex]

end

theorem NumberExtent.stops {s : Cursor} {r : Option Cursor} (h : NumberExtent s r) :
    Stops r (parseNumber s) := by
  cases h with
  | plain mantissa ends =>
    rw [parseNumber_plain mantissa ends]
    exact numberValue_stops
  | junk mantissa stop exp ends =>
    rw [parseNumber_junk mantissa stop exp ends]
    exact ⟨_, rfl⟩
  | @exponent m t ds u e c sign mantissa exp start digits ends =>
    have hstart : exponentStart t = .ok (some (sign ++ ds), c :: u) := by
      rw [start.start, exponent_append digits, exponent_stop (not_digit_of_ends ends), if_pos ends]
    cases hex : stol (sign ++ ds) with
    | none =>
      rw [parseNumber_exp_throws mantissa exp hstart hex]
      rfl
    | some v =>
      rw [parseNumber_exp mantissa exp hstart hex, Option.isSome_some, Bool.true_and]
      exact numberValue_stops
  | @badExponent m t ds u e c sign mantissa exp start digits stop ends =>
    have hstart : exponentStart t = .ok (none, u) := by
      rw [start.start, exponent_append digits, exponent_stop stop,
        if_neg (Bool.eq_false_iff.mp ends)]
    rw [parseNumber_exp_null mantissa exp hstart]
    exact ⟨_, rfl⟩

theorem exponentSign_cases (t : Cursor) :
    exponentStart t = .error .outOfBounds ∨ ∃ sign s, ExponentSign t sign s := by
  cases t with
  | nil => exact .inl rfl
  | cons d t =>
    by_cases hd : d = 45
    · subst hd
      cases t with
      | nil => exact .inl rfl
      | cons x t => exact .inr ⟨_, _, .minus x t⟩
    · exact .inr ⟨_, _, .plain t hd⟩

theorem parseNumber_traced (s : Cursor) : Traced (NumberExtent s) (parseNumber s) := by
  rcases split_at MantissaChar s with hall | ⟨m, c, t, rfl, hm, hc⟩
  · left
    rw [parseNumber, mantissa_all hall]
  · by_cases hexp : c = 69 ∨ c = 101
    · rcases exponentSign_cases t with h | ⟨sign, u, hsign⟩
      · exact .inl (parseNumber_exp_error hm hexp h)
      · rcases split_at IsDigit u with hall | ⟨ds, d, v, rfl, hds, hd⟩
        · refine .inl (parseNumber_exp_error hm hexp ?_)
          rw [hsign.start, exponent_all hall]
        · cases hends : endsNumber d with
          | true =>
            have h := NumberExtent.exponent hm hexp hsign hds hends
            exact .stop h h.stops
          | false =>
            have h := NumberExtent.badExponent hm hexp hsign hds hd hends
            exact .stop h h.stops
    · cases hends : endsNumber c with
      | true =>
        have h : NumberExtent (m ++ c :: t) _ := .plain hm hends
        exact .stop h h.stops
      | false =>
        have h : NumberExtent (m ++ c :: t) _ := .junk hm hc hexp hends
        exact .stop h h.stops

/-! ### Literals -/

theorem matchLit_cases (loader : Loader) (lit s : Cursor) :
    (matchLit loader lit s = .error .outOfBounds ∧ loader = .buffer ∧ s.length < lit.length) ∨
    (∃ r, s = lit ++ r ∧ matchLit loader lit s = .ok true) ∨
    (¬ lit <+: s ∧ (loader = .buffer → lit.length ≤ s.length) ∧ matchLit loader lit s = .ok false) := by
  by_cases hp : lit <+: s
  · obtain ⟨r, rfl⟩ := hp
    exact .inr (.inl ⟨r, rfl, matchLit_append loader lit r⟩)
  · have htake : s.take lit.length ≠ lit := by
      intro h
      exact hp (h ▸ List.take_prefix lit.length s)
    cases loader with
    | text =>
      refine .inr (.inr ⟨hp, fun hb => Loader.noConfusion hb, ?_⟩)
      rw [matchLit, decide_eq_false htake]
    | buffer =>
      by_cases hlen : s.length < lit.length
      · refine .inl ⟨?_, rfl, hlen⟩
        rw [matchLit, if_pos hlen]
      · refine .inr (.inr ⟨hp, fun _ => Nat.le_of_not_lt hlen, ?_⟩)
        rw [matchLit, if_neg hlen, decide_eq_false htake]

theorem matchLit_other {loader : Loader} {lit s : Cursor} (h : ¬ lit <+: s)
    (hlen : loader = .buffer → lit.length ≤ s.length) : matchLit loader lit s = .ok false := by
  rcases matchLit_cases loader lit s with ⟨-, hb, hlt⟩ | ⟨r, rfl, -⟩ | ⟨-, -, hm⟩
  · exact absurd (hlen hb) (Nat.not_le_of_lt hlt)
  · exact absurd (List.prefix_append lit r) h
  · exact hm

theorem true_not_prefix_false (r : Cursor) : ¬ str "true" <+: str "false" ++ r := by
  rintro ⟨u, hu⟩
  have hhead : some (116 : UInt8) = some 102 := congrArg List.head? hu
  exact absurd hhead (by decide)

section
variable {loader : Loader} {s r : Cursor}

theorem BoolExtent.stops (h : BoolExtent loader s r) : ∃ j, parseBool loader s = .ok (j, r) := by
  cases h with
  | isTrue r =>
    refine ⟨.boolean true, ?_⟩
    rw [parseBool, matchLit_append]
    rfl
  | isFalse r =>
    refine ⟨.boolean false, ?_⟩
    rw [parseBool, matchLit_other (true_not_prefix_false r) fun _ => by
      rw [List.length_append]
      exact Nat.le_add_right_of_le (by decide), matchLit_append]
    rfl
  | other long notTrue notFalse =>
    refine ⟨.null, ?_⟩
    have hfive : (str "false").length = 5 := by decide
    have hfour : (str "true").length = 4 := by decide
    rw [parseBool, matchLit_other notTrue fun h => by have := long h; omega,
      matchLit_other notFalse fun h => hfive ▸ long h]

theorem parseBool_traced (loader : Loader) (s : Cursor) :
    parseBool loader s = .error .outOfBounds ∨
      ∃ r, BoolExtent loader s r ∧ ∃ j, parseBool loader s = .ok (j, r) := by
  rcases matchLit_cases loader (str "true") s with ⟨h, -⟩ | ⟨r, rfl, -⟩ | ⟨htrue, -, h⟩
  · left
    rw [parseBool, h]
  · exact .inr ⟨r, .isTrue r, (BoolExtent.isTrue r).stops⟩
  · rcases matchLit_cases loader (str "false") s with ⟨h', -⟩ | ⟨r, rfl, -⟩ | ⟨hfalse, hlen, -⟩
    · left
      rw [parseBool, h]
      dsimp only
      rw [h']
    · exact .inr ⟨r, .isFalse r, (BoolExtent.isFalse r).stops⟩
    · have hext : BoolExtent loader s s := .other (fun hb => hlen hb) htrue hfalse
      exact .inr ⟨s, hext, hext.stops⟩

theorem NullExtent.stops (h : NullExtent loader s r) : ∃ j, parseNull loader s = .ok (j, r) := by
  cases h with
  | text r =>
    refine ⟨.null, ?_⟩
    rw [parseNull, matchLit_append]
    rfl
  | textOther other =>
    refine ⟨.null, ?_⟩
    rw [parseNull, @matchLit_other .text _ _ other fun hb => Loader.noConfusion hb]
    rfl
  | buffer r =>
    refine ⟨.null, ?_⟩
    rw [parseNull, matchLit_append]
    rfl
  | @bufferOther lit r four other =>
    refine ⟨.null, ?_⟩
    have hnull : (str "null").length = lit.length := four.symm
    have hother : ¬ str "null" <+: lit ++ r := by
      intro h
      have htake := List.prefix_iff_eq_take.mp h
      rw [hnull, List.take_left] at htake
      exact other htake.symm
    rw [parseNull, matchLit_other hother fun _ => by
      rw [hnull, List.length_append]
      exact Nat.le_add_right _ _]
    dsimp only
    rw [if_neg (by decide), ← four, List.drop_left]

theorem parseNull_traced (loader : Loader) (s : Cursor) :
    parseNull loader s = .error .outOfBounds ∨
      ∃ r, NullExtent loader s r ∧ ∃ j, parseNull loader s = .ok (j, r) := by
  rcases matchLit_cases loader (str "null") s with ⟨h, -⟩ | ⟨r, rfl, -⟩ | ⟨hnull, hlen, -⟩
  · left
    rw [parseNull, h]
  · cases loader with
    | text => exact .inr ⟨_, .text r, (NullExtent.text r).stops⟩
    | buffer => exact .inr ⟨_, .buffer r, (NullExtent.buffer r).stops⟩
  · cases loader with
    | text => exact .inr ⟨_, .textOther hnull, (NullExtent.textOther hnull).stops⟩
    | buffer =>
      have hfour : (s.take 4).length = 4 := List.length_take_of_le (hlen rfl)
      have hother : s.take 4 ≠ str "null" := by
        intro h
        exact hnull (h ▸ List.take_prefix 4 s)
      have hext := @NullExtent.bufferOther _ (s.drop 4) hfour hother
      rw [List.take_append_drop] at hext
      exact .inr ⟨_, hext, hext.stops⟩

end

/-! ### Values -/

section
variable {loader : Loader} {mem : Mem} {fuel : Nat} {s t : Cursor} {c : UInt8}

theorem parseNext_behind (h : Behind s c t) : parseNext loader mem fuel (c :: t) =
    parseNext loader mem fuel s := by
  cases fuel with
  | zero => rfl
  | succ fuel => rw [parseNext, parseNext, h.consumeWs, h.consumed]

theorem Stops.behind {r : Option Cursor} (h : Stops r (parseNext loader mem fuel s)) :
    ∃ c t, Behind s c t := by
  cases fuel with
  | zero => exact absurd rfl h.inBounds.2
  | succ fuel =>
    rcases consumeWs_cases s with hs | ⟨c, t, hb, -⟩
    · refine absurd ?_ h.inBounds.1
      rw [parseNext, hs]
    · exact ⟨c, t, hb⟩

theorem value_traced (items : ∀ s acc, Traced (Extent loader .items s) (arrayLoop loader mem fuel acc s))
    (fields : ∀ s obj, Traced (Extent loader .fields s) (objectLoop loader mem fuel obj s))
    (s : Cursor) : Traced (Extent loader .value s) (parseNext loader mem (fuel + 1) s) := by
  rcases consumeWs_cases s with hs | ⟨c, t, hb, hs⟩
  · left
    rw [parseNext, hs]
  · rw [parseNext, hs]
    dsimp only
    split_ifs with h91 h123 h34 htf h110 hnum
    · subst h91
      rcases consumeWs_cases t with ht | ⟨d, u, hd, ht⟩
      · left
        rw [ht]
      · rw [ht]
        dsimp only
        rw [List.head?_cons]
        split_ifs with hclose
        · obtain rfl := Option.some.inj hclose
          exact .stop (.emptyArray hb hd) ⟨_, rfl⟩
        · exact (items (d :: u) []).imp fun r => .array hb hd fun h => hclose (congrArg some h)
    · subst h123
      rcases consumeWs_cases t with ht | ⟨d, u, hd, ht⟩
      · left
        rw [ht]
      · rw [ht]
        dsimp only
        rw [List.head?_cons]
        split_ifs with hclose
        · obtain rfl := Option.some.inj hclose
          exact .stop (.emptyObject hb hd) ⟨_, rfl⟩
        · exact (fields (d :: u) _).imp fun r => .object hb hd fun h => hclose (congrArg some h)
    · subst h34
      rcases stringLoop_traced t [] with h | ⟨r, hr, v, h⟩
      · left
        rw [parseString, h]
      · refine .stop (.string hb hr) ?_
        rw [parseString, h]
        cases v with
        | none => exact ⟨_, rfl⟩
        | some val => exact ⟨_, rfl⟩
    · rcases parseBool_traced loader (c :: t) with h | ⟨r, hr, j, h⟩
      · exact .inl h
      · exact .stop (.boolean hb htf hr) ⟨j, h⟩
    · subst h110
      rcases parseNull_traced loader (110 :: t) with h | ⟨r, hr, j, h⟩
      · exact .inl h
      · exact .stop (.null hb hr) ⟨j, h⟩
    · rcases parseNumber_traced (c :: t) with h | h | ⟨r, hr, h⟩
      · exact .inl h
      · exact .inr (.inl h)
      · exact .stop (.number hb hnum hr) h
    · refine .stop (.other hb ?_) ⟨.null, rfl⟩
      rintro (h | h | h | h | h | h)
      · exact h91 h
      · exact h123 h
      · exact h34 h
      · exact htf h
      · exact h110 h
      · exact hnum h

theorem items_traced (value : ∀ s, Traced (Extent loader .value s) (parseNext loader mem fuel s))
    (items : ∀ s acc, Traced (Extent loader .items s) (arrayLoop loader mem fuel acc s))
    (s : Cursor) (acc : List JSON) :
    Traced (Extent loader .items s) (arrayLoop loader mem (fuel + 1) acc s) := by
  rcases value s with h | h | ⟨r, hr, hstop⟩
  · left
    rw [arrayLoop, h]
  · right; left
    rw [arrayLoop, h]
  · cases r with
    | none =>
      refine .stop (.itemThrows hr) ?_
      have hthrow : parseNext loader mem fuel s = .error .badNumber := hstop
      rw [arrayLoop, hthrow]
      rfl
    | some t =>
      obtain ⟨j, hj⟩ := hstop
      rcases consumeWs_cases t with ht | ⟨c, u, hb, ht⟩
      · left
        rw [arrayLoop, hj]
        dsimp only
        rw [ht]
      · rw [arrayLoop_round hj ht]
        split_ifs with hcomma hclose
        · subst hcomma
          exact (items u _).imp fun r => .itemNext hr hb
        · subst hclose
          exact .stop (.itemLast hr hb) ⟨_, rfl⟩
        · exact .stop (.itemStop hr hb hcomma hclose) ⟨_, rfl⟩

theorem fields_traced (value : ∀ s, Traced (Extent loader .value s) (parseNext loader mem fuel s))
    (fields : ∀ s obj, Traced (Extent loader .fields s) (objectLoop loader mem fuel obj s))
    (s : Cursor) (obj : JSON) :
    Traced (Extent loader .fields s) (objectLoop loader mem (fuel + 1) obj s) := by
  rcases value s with h | h | ⟨r, hr, hstop⟩
  · left
    rw [objectLoop, h]
  · right; left
    rw [objectLoop, h]
  · cases r with
    | none =>
      refine .stop (.keyThrows hr) ?_
      have hthrow : parseNext loader mem fuel s = .error .badNumber := hstop
      rw [objectLoop, hthrow]
      rfl
    | some t =>
      obtain ⟨key, hkey⟩ := hstop
      rcases consumeWs_cases t with ht | ⟨c, u, hb, ht⟩
      · left
        rw [objectLoop, hkey]
        dsimp only
        rw [ht]
      · by_cases hcolon : c = 58
        · subst hcolon
          rcases consumeWs_cases u with hu | ⟨d, v, hd, hu⟩
          · left
            rw [objectLoop, hkey]
            dsimp only
            rw [ht]
            dsimp only
            rw [List.head?_cons, if_pos rfl, List.tail_cons, hu]
          · have hsame : parseNext loader mem fuel (d :: v) = parseNext loader mem fuel u :=
              parseNext_behind hd
            rcases value u with h | h | ⟨r', hr', hstop'⟩
            · exact .inl (objectLoop_error hkey ht hu (hsame.trans h))
            · exact .inr (.inl (objectLoop_error hkey ht hu (hsame.trans h)))
            · cases r' with
              | none =>
                exact .stop (.fieldThrows hr hb hr') (objectLoop_error hkey ht hu (hsame.trans hstop'))
              | some x =>
                obtain ⟨j, hj⟩ := hstop'
                rcases consumeWs_cases x with hx | ⟨e, y, he, hx⟩
                · left
                  rw [objectLoop, hkey]
                  dsimp only
                  rw [ht]
                  dsimp only
                  rw [List.head?_cons, if_pos rfl, List.tail_cons, hu]
                  dsimp only
                  rw [hsame, hj]
                  dsimp only
                  rw [hx]
                · rw [objectLoop_round hkey ht hu (hsame.trans hj) hx]
                  split_ifs with hcomma hclose
                  · subst hcomma
                    exact (fields y _).imp fun r => .fieldNext hr hb hr' he
                  · subst hclose
                    exact .stop (.fieldLast hr hb hr' he) ⟨_, rfl⟩
                  · exact .stop (.fieldStop hr hb hr' he hcomma hclose) ⟨_, rfl⟩
        · refine .stop (.keyStop hr hb hcolon) ?_
          rw [objectLoop_other hkey ht hcolon]
          exact ⟨_, rfl⟩

end

theorem parse_traced (loader : Loader) (mem : Mem) (fuel : Nat) :
    (∀ s, Traced (Extent loader .value s) (parseNext loader mem fuel s)) ∧
    (∀ s acc, Traced (Extent loader .items s) (arrayLoop loader mem fuel acc s)) ∧
    (∀ s obj, Traced (Extent loader .fields s) (objectLoop loader mem fuel obj s)) := by
  induction fuel with
  | zero => exact ⟨fun _ => .inr (.inl rfl), fun _ _ => .inr (.inl rfl), fun _ _ => .inr (.inl rfl)⟩
  | succ fuel ih =>
    obtain ⟨value, items, fields⟩ := ih
    exact ⟨value_traced items fields, items_traced value items, fields_traced value fields⟩

/-- What the loader does with a part of the input, with enough fuel for it. -/
def Reaches (loader : Loader) (mem : Mem) (part : Part) (s : Cursor) (r : Option Cursor) : Prop :=
  match part with
  | .value => ∀ fuel, 2 * s.length + 1 ≤ fuel → Stops r (parseNext loader mem fuel s)
  | .items => ∀ fuel acc, 2 * s.length + 2 ≤ fuel → Stops r (arrayLoop loader mem fuel acc s)
  | .fields => ∀ fuel obj, 2 * s.length + 2 ≤ fuel → Stops r (objectLoop loader mem fuel obj s)

section
variable {loader : Loader} {mem : Mem} {s t : Cursor} {c : UInt8} {r : Option Cursor}

theorem Behind.length (h : Behind s c t) : t.length + 1 ≤ s.length := by
  obtain ⟨w, rfl, -, -⟩ := h
  simp only [List.length_append, List.length_cons]
  omega

theorem Reaches.length (h : Reaches loader mem .value s (some t)) : t.length ≤ s.length := by
  obtain ⟨j, hj⟩ := h _ le_rfl
  exact ((parse_settled loader mem _).1 s le_rfl).2 _ _ hj

theorem reaches_value (start : Behind s c t)
    (h : ∀ fuel, 2 * t.length + 2 ≤ fuel →
      Stops r (parseNext loader mem (fuel + 1) (c :: t))) : Reaches loader mem .value s r := by
  intro fuel hf
  have hlen := start.length
  obtain ⟨fuel, rfl⟩ : ∃ k, fuel = k + 1 := ⟨fuel - 1, by omega⟩
  rw [← parseNext_behind start]
  exact h fuel (by omega)

/-- By induction on the derivation; a round of a loop starts with less fuel than its item needs
and the item leaves a shorter cursor. -/
theorem Extent.reaches {part : Part} (h : Extent loader part s r) : Reaches loader mem part s r := by
  induction h with
  | @emptyArray s t u start close =>
    refine reaches_value start fun fuel _ => ?_
    rw [parseNext, start.consumed]
    dsimp only
    rw [if_pos rfl, close.consumeWs]
    exact ⟨_, rfl⟩
  | @array s t u c r start next first _ ih =>
    have hlen := next.length
    refine reaches_value start fun fuel hf => ?_
    rw [parseNext, start.consumed]
    dsimp only
    rw [if_pos rfl, next.consumeWs]
    dsimp only
    rw [List.head?_cons, if_neg fun h => first (Option.some.inj h)]
    refine ih fuel [] ?_
    rw [List.length_cons]
    omega
  | @emptyObject s t u start close =>
    refine reaches_value start fun fuel _ => ?_
    rw [parseNext, start.consumed]
    dsimp only
    rw [if_neg (by decide), if_pos rfl, close.consumeWs]
    exact ⟨_, rfl⟩
  | @object s t u c r start next first _ ih =>
    have hlen := next.length
    refine reaches_value start fun fuel hf => ?_
    rw [parseNext, start.consumed]
    dsimp only
    rw [if_neg (by decide), if_pos rfl, next.consumeWs]
    dsimp only
    rw [List.head?_cons, if_neg fun h => first (Option.some.inj h)]
    refine ih fuel _ ?_
    rw [List.length_cons]
    omega
  | @string s t r start string =>
    refine reaches_value start fun fuel _ => ?_
    obtain ⟨v, hv⟩ := string.stops []
    rw [parseNext, start.consumed]
    dsimp only
    rw [if_neg (by decide), if_neg (by decide), if_pos rfl, parseString, hv]
    cases v with
    | none => exact ⟨_, rfl⟩
    | some val => exact ⟨_, rfl⟩
  | @boolean s t r c start head boolean =>
    refine reaches_value start fun fuel _ => ?_
    rw [parseNext, start.consumed]
    dsimp only
    rcases head with rfl | rfl
    · rw [if_neg (by decide), if_neg (by decide), if_neg (by decide), if_pos (by decide)]
      exact boolean.stops
    · rw [if_neg (by decide), if_neg (by decide), if_neg (by decide), if_pos (by decide)]
      exact boolean.stops
  | @null s t r start null =>
    refine reaches_value start fun fuel _ => ?_
    rw [parseNext, start.consumed]
    dsimp only
    rw [if_neg (by decide), if_neg (by decide), if_neg (by decide),
      if_neg (by decide), if_pos rfl]
    exact null.stops
  | @number s t c r start head number =>
    refine reaches_value start fun fuel _ => ?_
    obtain ⟨-, -, -, h91, h123, h34, htf, h110⟩ := numeral_head head.symm
    rw [parseNext, start.consumed]
    dsimp only
    rw [if_neg h91, if_neg h123, if_neg h34, if_neg htf, if_neg h110,
      if_pos head]
    exact number.stops
  | @other s t c start head =>
    refine reaches_value start fun fuel _ => ?_
    simp only [Opens, not_or] at head
    obtain ⟨h91, h123, h34, ⟨h116, h102⟩, h110, hdigit, h45⟩ := head
    rw [parseNext, start.consumed]
    dsimp only
    rw [if_neg h91, if_neg h123, if_neg h34, if_neg (not_or.mpr ⟨h116, h102⟩),
      if_neg h110, if_neg (not_or.mpr ⟨hdigit, h45⟩)]
    exact ⟨_, rfl⟩
  | @itemThrows s _ ih =>
    intro fuel acc hf
    obtain ⟨fuel, rfl⟩ : ∃ k, fuel = k + 1 := ⟨fuel - 1, by omega⟩
    have hthrow : parseNext loader mem fuel s = .error .badNumber := ih fuel (by omega)
    rw [arrayLoop, hthrow]
    rfl
  | @itemNext s t u r _ comma _ ih ihs =>
    intro fuel acc hf
    obtain ⟨fuel, rfl⟩ : ∃ k, fuel = k + 1 := ⟨fuel - 1, by omega⟩
    obtain ⟨j, hj⟩ := ih fuel (by omega)
    have hlen := comma.length
    have hlen' := ih.length
    rw [arrayLoop_round hj comma.consumeWs, if_pos rfl]
    exact ihs fuel _ (by omega)
  | @itemLast s t u _ close ih =>
    intro fuel acc hf
    obtain ⟨fuel, rfl⟩ : ∃ k, fuel = k + 1 := ⟨fuel - 1, by omega⟩
    obtain ⟨j, hj⟩ := ih fuel (by omega)
    rw [arrayLoop_round hj close.consumeWs, if_neg (by decide), if_pos rfl]
    exact ⟨_, rfl⟩
  | @itemStop s t u c _ next comma close ih =>
    intro fuel acc hf
    obtain ⟨fuel, rfl⟩ : ∃ k, fuel = k + 1 := ⟨fuel - 1, by omega⟩
    obtain ⟨j, hj⟩ := ih fuel (by omega)
    rw [arrayLoop_round hj next.consumeWs, if_neg comma, if_neg close]
    exact ⟨_, rfl⟩
  | @keyThrows s _ ih =>
    intro fuel obj hf
    obtain ⟨fuel, rfl⟩ : ∃ k, fuel = k + 1 := ⟨fuel - 1, by omega⟩
    have hthrow : parseNext loader mem fuel s = .error .badNumber := ih fuel (by omega)
    rw [objectLoop, hthrow]
    rfl
  | @keyStop s t u c _ next colon ih =>
    intro fuel obj hf
    obtain ⟨fuel, rfl⟩ : ∃ k, fuel = k + 1 := ⟨fuel - 1, by omega⟩
    obtain ⟨key, hkey⟩ := ih fuel (by omega)
    rw [objectLoop_other hkey next.consumeWs colon]
    exact ⟨_, rfl⟩
  | @fieldThrows s t u _ colon _ ih ihv =>
    intro fuel obj hf
    obtain ⟨fuel, rfl⟩ : ∃ k, fuel = k + 1 := ⟨fuel - 1, by omega⟩
    obtain ⟨key, hkey⟩ := ih fuel (by omega)
    have hlen := colon.length
    have hlen' := ih.length
    have hthrow : parseNext loader mem fuel u = .error .badNumber := ihv fuel (by omega)
    obtain ⟨d, v, hd⟩ := (ihv fuel (by omega)).behind
    exact objectLoop_error hkey colon.consumeWs hd.consumeWs ((parseNext_behind hd).trans hthrow)
  | @fieldNext s t u v x r _ colon _ comma _ ih ihv ihs =>
    intro fuel obj hf
    obtain ⟨fuel, rfl⟩ : ∃ k, fuel = k + 1 := ⟨fuel - 1, by omega⟩
    obtain ⟨key, hkey⟩ := ih fuel (by omega)
    have hcolon := colon.length
    have hcomma := comma.length
    have hlen := ih.length
    have hlen' := ihv.length
    have hvalue := ihv fuel (by omega)
    obtain ⟨d, w, hd⟩ := hvalue.behind
    obtain ⟨j, hj⟩ := hvalue
    rw [objectLoop_round hkey colon.consumeWs hd.consumeWs ((parseNext_behind hd).trans hj)
      comma.consumeWs, if_pos rfl]
    exact ihs fuel _ (by omega)
  | @fieldLast s t u v x _ colon _ close ih ihv =>
    intro fuel obj hf
    obtain ⟨fuel, rfl⟩ : ∃ k, fuel = k + 1 := ⟨fuel - 1, by omega⟩
    obtain ⟨key, hkey⟩ := ih fuel (by omega)
    have hlen := colon.length
    have hlen' := ih.length
    have hvalue := ihv fuel (by omega)
    obtain ⟨d, w, hd⟩ := hvalue.behind
    obtain ⟨j, hj⟩ := hvalue
    rw [objectLoop_round hkey colon.consumeWs hd.consumeWs ((parseNext_behind hd).trans hj)
      close.consumeWs, if_neg (by decide), if_pos rfl]
    exact ⟨_, rfl⟩
  | @fieldStop s t u v x c _ colon _ next comma close ih ihv =>
    intro fuel obj hf
    obtain ⟨fuel, rfl⟩ : ∃ k, fuel = k + 1 := ⟨fuel - 1, by omega⟩
    obtain ⟨key, hkey⟩ := ih fuel (by omega)
    have hlen := colon.length
    have hlen' := ih.length
    have hvalue := ihv fuel (by omega)
    obtain ⟨d, w, hd⟩ := hvalue.behind
    obtain ⟨j, hj⟩ := hvalue
    rw [objectLoop_round hkey colon.consumeWs hd.consumeWs ((parseNext_behind hd).trans hj)
      next.consumeWs, if_neg comma, if_neg close]
    exact ⟨_, rfl⟩

end

/-! ### Reading inside the input -/

def Ends (loader : Loader) (s : Cursor) : Prop := ∃ r, Extent loader .value s r

theorem inBounds_map {res : Parsed JSON} : InBounds (res.map Prod.fst) ↔ InBounds res := by
  cases res with
  | error f => cases f <;> simp [InBounds, Except.map]
  | ok r => simp [InBounds, Except.map]

theorem parseNext_inBounds_iff (loader : Loader) (mem : Mem) (s : Cursor) :
    InBounds (parseNext loader mem (fuelFor s) s) ↔ Ends loader s := by
  constructor
  · rintro ⟨hbounds, hfuel⟩
    rcases (parse_traced loader mem (fuelFor s)).1 s with h | h | ⟨r, hr, -⟩
    · exact absurd h hbounds
    · exact absurd h hfuel
    · exact ⟨r, hr⟩
  · rintro ⟨r, hr⟩
    have hreach : Reaches loader mem .value s r := hr.reaches
    exact (hreach _ le_rfl).inBounds

/-- Each overload stays inside its input exactly when the input is empty or ends what it starts;
the string overload has the terminating NUL for that. -/
theorem load_inBounds_iff (mem : Mem) (data : Bytes) :
    (InBounds (loadBuffer mem data data.length) ↔ data = [] ∨ Ends .buffer data) ∧
      (InBounds (load mem data) ↔ data = [] ∨ Ends .text (data ++ [0])) := by
  by_cases hdata : data = []
  · subst hdata
    exact ⟨iff_of_true ⟨nofun, nofun⟩ (.inl rfl), iff_of_true ⟨nofun, nofun⟩ (.inl rfl)⟩
  · have hlen := mt List.length_eq_zero_iff.mp hdata
    rw [loadBuffer, if_neg hlen, load, if_neg hlen, inBounds_map, inBounds_map,
      parseNext_inBounds_iff, parseNext_inBounds_iff, or_iff_right hdata, or_iff_right hdata]
    exact ⟨Iff.rfl, Iff.rfl⟩

theorem quote_not_inBounds :
    ¬ InBounds (loadBuffer ⟨fun _ _ => 0⟩ (str "\"") 1) ∧
      ¬ InBounds (load ⟨fun _ _ => 0⟩ (str "\"")) :=
  ⟨fun h => h.1 rfl, fun h => h.1 rfl⟩

/-- A well-formed text that is no bare integer is read inside its bounds, whatever follows it. -/
theorem wellFormed_inBounds (mem : Mem) (loader : Loader) {w v : Bytes} {events : List Event}
    (hw : Blank w) (hv : Value v events) (hi : ¬ IntegerText v) (rest : Cursor) :
    InBounds (parseNext loader mem (fuelFor (w ++ (v ++ rest))) (w ++ (v ++ rest))) := by
  have hfuel : 2 * v.length ≤ fuelFor (w ++ (v ++ rest)) := by
    simp only [fuelFor, List.length_append]
    omega
  rw [parseNext_blank hw]
  obtain ⟨htext, hevents⟩ := hv.passes rest _ (absurd · hi) hfuel
  have hstop : ∃ r, Stops r (parseNext loader mem (fuelFor (w ++ (v ++ rest))) (v ++ rest)) := by
    cases loader with
    | text =>
      rcases htext with ⟨j, hj⟩ | hthrow
      · exact ⟨some rest, j, hj⟩
      · exact ⟨none, hthrow⟩
    | buffer =>
      cases events with
      | nil =>
        obtain ⟨j, hj⟩ := hevents
        exact ⟨some rest, j, hj .buffer⟩
      | cons e events =>
        cases e with
        | outOfRange => exact ⟨none, hevents .buffer⟩
        | null =>
          obtain ⟨j, t, hj, -⟩ := hevents
          exact ⟨some (110 :: t), j, hj⟩
  obtain ⟨r, hr⟩ := hstop
  exact hr.inBounds

theorem wellFormed_inBounds_null :
    InBounds (parseNext .buffer ⟨fun _ _ => 0⟩ (fuelFor (str " " ++ (nullDocument ++ [])))
      (str " " ++ (nullDocument ++ []))) := by
  refine wellFormed_inBounds _ .buffer (by decide) nullDocument_value (fun h => ?_) []
  obtain ⟨c, t, hc, hchar⟩ := h.head
  obtain rfl : 123 = c := (List.cons.inj hc).1
  exact absurd hchar (by decide)

end CrustSworker.JsonBounds

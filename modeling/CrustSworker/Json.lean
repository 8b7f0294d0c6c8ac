import CrustSworker.EUtils
import CrustSworker.OrderedMap

/-!
# The enclave's JSON values

`json::JSON` with its accessors. `operator[]` never fails in C++: on a value of
another class it first replaces the value by an empty object or array. Reading
through it is `get`/`idx`, which answer `null` there, and assigning through it is
`put`. Doubles are kept as the text they were read from, since no function of the
enclave computes with their value.
-/

namespace CrustSworker

open OrderedMap

inductive JSON where
  | null
  | object (fields : List (Bytes × JSON))
  | array (items : List JSON)
  | hash (h : Hash)
  | string (s : Bytes)
  | floating (val exp : Bytes)
  | integral (n : Int)
  | boolean (b : Bool)
  deriving Inhabited

def hashTag : Bytes := str "$&JT&$"

def ltBytes : Bytes → Bytes → Bool
  | _, [] => false
  | [], _ :: _ => true
  | a :: s, b :: t => if a = b then ltBytes s t else decide (a < b)

theorem ltBytes_irrefl (s : Bytes) : ltBytes s s = false := by
  induction s with
  | nil => rfl
  | cons a s ih => simp [ltBytes, ih]

theorem ltBytes_trans (s t u : Bytes) (h₁ : ltBytes s t = true) (h₂ : ltBytes t u = true) :
    ltBytes s u = true := by
  induction s generalizing t u with
  | nil =>
    cases u with
    | nil => simp [ltBytes] at h₂
    | cons c u => rfl
  | cons a s ih =>
    cases t with
    | nil => simp [ltBytes] at h₁
    | cons b t =>
      cases u with
      | nil => simp [ltBytes] at h₂
      | cons c u =>
        simp only [ltBytes] at h₁ h₂ ⊢
        by_cases hab : a = b
        · subst hab
          rw [if_pos rfl] at h₁
          by_cases hac : a = c
          · rw [if_pos hac] at h₂ ⊢
            exact ih t u h₁ h₂
          · rwa [if_neg hac] at h₂ ⊢
        · rw [if_neg hab, decide_eq_true_eq] at h₁
          by_cases hbc : b = c
          · subst hbc
            rwa [if_neg hab, decide_eq_true_eq]
          · rw [if_neg hbc, decide_eq_true_eq] at h₂
            have hac := UInt8.lt_trans h₁ h₂
            rwa [if_neg (UInt8.ne_of_lt hac), decide_eq_true_eq]

theorem ltBytes_total (s t : Bytes) (hne : s ≠ t) (h : ltBytes s t = false) :
    ltBytes t s = true := by
  induction s generalizing t with
  | nil =>
    cases t with
    | nil => exact absurd rfl hne
    | cons b t => simp [ltBytes] at h
  | cons a s ih =>
    cases t with
    | nil => rfl
    | cons b t =>
      simp only [ltBytes] at h ⊢
      by_cases hab : a = b
      · subst hab
        rw [if_pos rfl] at h ⊢
        exact ih t (fun heq => hne (by rw [heq])) h
      · rw [if_neg hab, decide_eq_false_iff_not, UInt8.not_lt] at h
        rw [if_neg (Ne.symm hab), decide_eq_true_eq]
        exact UInt8.lt_of_le_of_ne h (Ne.symm hab)

theorem isOrder_ltBytes : IsOrder ltBytes := ⟨ltBytes_irrefl, ltBytes_trans, ltBytes_total⟩

def escapeChar (c : UInt8) : Bytes :=
  if c = 34 then [92, 34]
  else if c = 92 then [92, 92]
  else if c = 8 then [92, 98]
  else if c = 12 then [92, 102]
  else if c = 10 then [92, 110]
  else if c = 13 then [92, 114]
  else if c = 9 then [92, 116]
  else [c]

def jsonEscape (s : Bytes) : Bytes := s.flatMap escapeChar

theorem escapeChar_kept_or (c : UInt8) :
    escapeChar c = [c] ∨ ∃ e, escapeChar c = [92, e] ∧ (e < 48 ∨ 57 < e) := by
  unfold escapeChar
  split_ifs
  · exact .inr ⟨34, rfl, by decide⟩
  · exact .inr ⟨92, rfl, by decide⟩
  · exact .inr ⟨98, rfl, by decide⟩
  · exact .inr ⟨102, rfl, by decide⟩
  · exact .inr ⟨110, rfl, by decide⟩
  · exact .inr ⟨114, rfl, by decide⟩
  · exact .inr ⟨116, rfl, by decide⟩
  · exact .inl rfl

namespace JSON

def size : JSON → Int
  | .object m => m.length
  | .array l => l.length
  | .hash _ => 32
  | _ => -1

def toInt : JSON → Int
  | .integral n => n
  | _ => 0

def toStr : JSON → Bytes
  | .string s => jsonEscape s
  | .hash h => hexstringSafe h.val
  | .integral n => decInt n
  | _ => []

def toBytes : JSON → Option Hash
  | .hash h => some h
  | _ => none

def hasKey (j : JSON) (key : Bytes) : Bool :=
  match j with
  | .object m => (findKey key m).isSome
  | _ => false

def get (j : JSON) (key : Bytes) : JSON :=
  match j with
  | .object m => (findKey key m).getD .null
  | _ => .null

def put (j : JSON) (key : Bytes) (v : JSON) : JSON :=
  match j with
  | .object m => .object (insertKey ltBytes key v m)
  | _ => .object [(key, v)]

def idx (j : JSON) (i : Nat) : JSON :=
  match j with
  | .array l => l.getD i .null
  | _ => .null

def getChar (j : JSON) (index : Nat) : UInt8 :=
  match j with
  | .string s => s.getD index 0
  | _ => 0

def setChar (j : JSON) (index : Nat) (c : UInt8) : JSON :=
  match j with
  | .string s => .string (if index = s.length then s ++ [c] else s.set index c)
  | j => j

def objectRange : JSON → List (Bytes × JSON)
  | .object m => m
  | _ => []

/-- The values a loop `for (i = 0; i < j.size(); i++)` reads as `j[i]`. The first
such access turns a hash or a non-empty object into a one-element array. -/
def loopRange : JSON → List JSON
  | .array l => l
  | .object (_ :: _) => [.null]
  | .hash _ => [.null]
  | _ => []

@[simp] theorem get_put_self (j : JSON) (k : Bytes) (v : JSON) : (j.put k v).get k = v := by
  cases j <;> simp [put, get, findKey]

theorem get_put_ne (j : JSON) {k k' : Bytes} (h : k' ≠ k) (v : JSON) :
    (j.put k v).get k' = j.get k' := by
  cases j <;> simp [put, get, findKey, h, findKey_insertKey_ne ltBytes h]

theorem getChar_setChar_self {s : Bytes} {i : Nat} (hi : i < s.length) (c : UInt8) :
    ((JSON.string s).setChar i c).getChar i = c := by
  have hne : i ≠ s.length := by omega
  simp [setChar, getChar, hne, hi]

theorem getChar_setChar_ne {s : Bytes} {i k : Nat} (hi : i < s.length) (hk : k ≠ i) (c : UInt8) :
    ((JSON.string s).setChar i c).getChar k = (JSON.string s).getChar k := by
  have hne : i ≠ s.length := by omega
  simp [setChar, getChar, hne, List.getElem?_set_ne (Ne.symm hk)]

/-! ### Writing -/

def pad (depth : Nat) : Bytes := List.replicate (2 * depth) 32

section
variable (floatText : Bytes → Bytes → Bytes)

mutual

/-- `dump(depth, "  ")`; `floatText` is `std::to_string` of a double. -/
def dumpAt : JSON → Nat → Bytes
  | .null, _ => str "null"
  | .object m, depth =>
    str "\x7b\n" ++ dumpFields m depth true ++ str "\n" ++ (pad depth).drop 2 ++ str "\x7d"
  | .array l, depth => str "[" ++ dumpItems l depth true ++ str "]"
  | .hash h, _ => str "\"" ++ hashTag ++ hexstringSafe h.val ++ str "\""
  | .string s, _ => str "\"" ++ jsonEscape s ++ str "\""
  | .floating val exp, _ => floatText val exp
  | .integral n, _ => decInt n
  | .boolean b, _ => if b then str "true" else str "false"

def dumpFields : List (Bytes × JSON) → Nat → Bool → Bytes
  | [], _, _ => []
  | p :: ps, depth, skip =>
    (if skip then [] else str ",\n") ++ dumpField p depth ++ dumpFields ps depth false

def dumpField : Bytes × JSON → Nat → Bytes
  | (key, v), depth => pad depth ++ str "\"" ++ key ++ str "\" : " ++ dumpAt v (depth + 1)

def dumpItems : List JSON → Nat → Bool → Bytes
  | [], _, _ => []
  | j :: js, depth, skip =>
    (if skip then [] else str ", ") ++ dumpAt j (depth + 1) ++ dumpItems js depth false

end

def dump (j : JSON) : Bytes := dumpAt floatText j 1

end
end JSON

def removeChar (data : Bytes) (c : UInt8) : Bytes := data.filter fun b => decide (b ≠ c)

def strip (data : Bytes) : Bytes := removeChar (removeChar (removeChar data 10) 92) 32

end CrustSworker

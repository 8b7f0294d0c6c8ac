import CrustSworker.ByteText

/-!
# Byte-level helpers of the enclave

Hex text, fixed-size byte arrays, the allocator and the hash wrapper. Two things
the C++ leaves open are explicit: `Mem.after` is what a read behind the end of a
buffer finds, and an allocation succeeds or fails as the caller of `encMalloc`
says, except that no request larger than the enclave heap is ever served.
-/

namespace CrustSworker

def hashLength : Nat := 32

def heapMaxSize : Nat := 0x20000000

abbrev ByteArr (n : Nat) := {b : Bytes // b.length = n}

abbrev Hash := ByteArr 32
abbrev PubKey := ByteArr 64
abbrev PriKey := ByteArr 32
abbrev Signature := ByteArr 64

def zeroHash : Hash := ⟨List.replicate 32 0, List.length_replicate⟩

theorem length_zeros64 : (List.replicate 64 (0 : UInt8)).length = 64 := rfl

theorem length_zeros32 : (List.replicate 32 (0 : UInt8)).length = 32 := rfl

/-- The memory behind a buffer; nothing constrains it. -/
structure Mem where
  after : Bytes → Nat → UInt8

/-- `memcpy` of `n` bytes out of `buf`, running past its end when it is shorter. -/
def Mem.read (mem : Mem) (buf : Bytes) (n : Nat) : ByteArr n :=
  ⟨buf.take n ++ (List.range (n - buf.length)).map (mem.after buf), by
    simp only [List.length_append, List.length_take, List.length_map, List.length_range]
    omega⟩

theorem Mem.read_of_le (mem : Mem) {buf : Bytes} {n : Nat} (h : n ≤ buf.length) :
    (mem.read buf n).val = buf.take n := by
  have h0 : n - buf.length = 0 := by omega
  simp [Mem.read, h0]

theorem Mem.read_full (mem : Mem) {n : Nat} (b : ByteArr n) : mem.read b.val n = b := by
  refine Subtype.ext ?_
  rw [mem.read_of_le b.property.ge, List.take_of_length_le b.property.le]

theorem byteArr_ne_nil {n : Nat} (b : ByteArr n) (hn : 0 < n) : b.val ≠ [] := by
  apply List.ne_nil_of_length_pos
  rw [b.property]
  exact hn

def sizeT (n : Int) : Nat := (n % 2 ^ 64).toNat

/-- `enc_malloc`: `ok` is the allocator's answer to the third attempt. -/
def encMalloc (ok : Bool) (size : Nat) : Bool := ok && decide (size ≤ heapMaxSize)

theorem encMalloc_le {ok : Bool} {size : Nat} (h : encMalloc ok size = true) :
    size ≤ heapMaxSize := by
  simp only [encMalloc, Bool.and_eq_true, decide_eq_true_eq] at h
  exact h.2

def sgxSha256Msg (sha256 : Bytes → Hash) (src : Bytes) : Hash :=
  sha256 (src.take (src.length % 2 ^ 32))

theorem sgxSha256Msg_of_le (sha256 : Bytes → Hash) {src : Bytes}
    (h : src.length ≤ heapMaxSize) : sgxSha256Msg sha256 src = sha256 src := by
  have hlt : src.length < 2 ^ 32 := lt_of_le_of_lt h (by decide)
  rw [sgxSha256Msg, Nat.mod_eq_of_lt hlt, List.take_length]

def charToInt (input : UInt8) : Nat :=
  if 48 ≤ input ∧ input ≤ 57 then input.toNat - 48
  else if 65 ≤ input ∧ input ≤ 70 then input.toNat - 65 + 10
  else if 97 ≤ input ∧ input ≤ 102 then input.toNat - 97 + 10
  else 0

def hextable (n : Nat) : UInt8 := (str "0123456789abcdef").getD n 0

def hexstringSafe (src : Bytes) : Bytes :=
  src.flatMap fun b => [hextable (b.toNat / 16), hextable (b.toNat % 16)]

@[simp] theorem hexstringSafe_nil : hexstringSafe [] = [] := rfl

theorem hexstringSafe_cons (b : UInt8) (s : Bytes) :
    hexstringSafe (b :: s) = hextable (b.toNat / 16) :: hextable (b.toNat % 16) :: hexstringSafe s :=
  rfl

def hexPairs : Bytes → Bytes
  | a :: b :: t => UInt8.ofNat (charToInt a * 16 + charToInt b) :: hexPairs t
  | _ => []

/-- `hex_string_to_bytes` on a whole string; `none` is the `NULL` for an empty
string or one of odd length. -/
def hexStringToBytes (src : Bytes) : Option Bytes :=
  if src.length % 2 ≠ 0 ∨ src.length = 0 then none else some (hexPairs src)

def hexStringToBytesWith (malloc : Bool) (src : Bytes) : Option Bytes :=
  if src.length % 2 ≠ 0 ∨ src.length = 0 then none
  else if ¬ encMalloc malloc (src.length / 2) then none
  else some (hexPairs src)

def hexstringSafeWith (malloc : Bool) (src : Bytes) : Bytes :=
  if encMalloc malloc (src.length * 2) then hexstringSafe src else []

theorem hexstringSafeWith_hash (malloc : Bool) (h : Hash) :
    hexstringSafeWith malloc h.val = if malloc then hexstringSafe h.val else [] := by
  rw [hexstringSafeWith, h.property]
  cases malloc <;> rfl

theorem length_hexPairs (s : Bytes) : (hexPairs s).length = s.length / 2 := by
  induction s using hexPairs.induct with
  | case1 a b t ih =>
    simp only [hexPairs, List.length_cons, ih]
    omega
  | case2 s h =>
    match s, h with
    | [], _ => rfl
    | [_], _ => simp [hexPairs]
    | a :: b :: t, h => exact absurd rfl (h a b t)

/-- The 64 characters `hex_string_to_bytes(s.c_str(), HASH_LENGTH * 2)` reads: a
string shorter than that is left through its terminating NUL. -/
def cStr64 (mem : Mem) (s : Bytes) : Bytes := (mem.read (s ++ [0]) 64).val

theorem cStr64_length (mem : Mem) (s : Bytes) : (cStr64 mem s).length = 64 :=
  (mem.read (s ++ [0]) 64).property

def hexHash (mem : Mem) (s : Bytes) : Hash :=
  ⟨hexPairs (cStr64 mem s), by rw [length_hexPairs, cStr64_length]⟩

end CrustSworker

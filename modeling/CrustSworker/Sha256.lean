import CrustSworker.EUtils

/-!
# SHA-256

The hash function behind `sgx_sha256_msg`, as FIPS 180-4 defines it, over natural
numbers reduced modulo `2 ^ 32`. The model itself takes the hash as a parameter;
this concrete function is what the parameter stands for, and the runs on fixed
inputs use it.
-/

namespace CrustSworker.Sha256

def add (x y : Nat) : Nat := (x + y) % 2 ^ 32

def rotr (x n : Nat) : Nat := (x >>> n) ||| ((x <<< (32 - n)) % 2 ^ 32)

def compl (x : Nat) : Nat := 2 ^ 32 - 1 - x

def ch (x y z : Nat) : Nat := (x &&& y) ^^^ (compl x &&& z)
def maj (x y z : Nat) : Nat := (x &&& y) ^^^ (x &&& z) ^^^ (y &&& z)
def bigSigma0 (x : Nat) : Nat := rotr x 2 ^^^ rotr x 13 ^^^ rotr x 22
def bigSigma1 (x : Nat) : Nat := rotr x 6 ^^^ rotr x 11 ^^^ rotr x 25
def smallSigma0 (x : Nat) : Nat := rotr x 7 ^^^ rotr x 18 ^^^ (x >>> 3)
def smallSigma1 (x : Nat) : Nat := rotr x 17 ^^^ rotr x 19 ^^^ (x >>> 10)

def roundConstants : List Nat :=
  [0x428a2f98, 0x71374491, 0xb5c0fbcf, 0xe9b5dba5, 0x3956c25b, 0x59f111f1, 0x923f82a4, 0xab1c5ed5,
   0xd807aa98, 0x12835b01, 0x243185be, 0x550c7dc3, 0x72be5d74, 0x80deb1fe, 0x9bdc06a7, 0xc19bf174,
   0xe49b69c1, 0xefbe4786, 0x0fc19dc6, 0x240ca1cc, 0x2de92c6f, 0x4a7484aa, 0x5cb0a9dc, 0x76f988da,
   0x983e5152, 0xa831c66d, 0xb00327c8, 0xbf597fc7, 0xc6e00bf3, 0xd5a79147, 0x06ca6351, 0x14292967,
   0x27b70a85, 0x2e1b2138, 0x4d2c6dfc, 0x53380d13, 0x650a7354, 0x766a0abb, 0x81c2c92e, 0x92722c85,
   0xa2bfe8a1, 0xa81a664b, 0xc24b8b70, 0xc76c51a3, 0xd192e819, 0xd6990624, 0xf40e3585, 0x106aa070,
   0x19a4c116, 0x1e376c08, 0x2748774c, 0x34b0bcb5, 0x391c0cb3, 0x4ed8aa4a, 0x5b9cca4f, 0x682e6ff3,
   0x748f82ee, 0x78a5636f, 0x84c87814, 0x8cc70208, 0x90befffa, 0xa4506ceb, 0xbef9a3f7, 0xc67178f2]

structure Words where
  a : Nat
  b : Nat
  c : Nat
  d : Nat
  e : Nat
  f : Nat
  g : Nat
  h : Nat

def initial : Words :=
  ⟨0x6a09e667, 0xbb67ae85, 0x3c6ef372, 0xa54ff53a, 0x510e527f, 0x9b05688c, 0x1f83d9ab, 0x5be0cd19⟩

def round (s : Words) (k w : Nat) : Words :=
  let t1 := add (add (add s.h (bigSigma1 s.e)) (add (ch s.e s.f s.g) k)) w
  let t2 := add (bigSigma0 s.a) (maj s.a s.b s.c)
  ⟨add t1 t2, s.a, s.b, s.c, add s.d t1, s.e, s.f, s.g⟩

/-- The word after the sixteen most recent schedule words, oldest first. -/
def nextWord (w : List Nat) : Nat :=
  add (add (smallSigma1 (w.getD 14 0)) (w.getD 9 0)) (add (smallSigma0 (w.getD 1 0)) (w.getD 0 0))

def rounds : List Nat → List Nat → Words → Words
  | [], _, s => s
  | k :: ks, w, s => rounds ks (w.tail ++ [nextWord w]) (round s k (w.headD 0))

def compress (s : Words) (block : List Nat) : Words :=
  let r := rounds roundConstants block s
  ⟨add s.a r.a, add s.b r.b, add s.c r.c, add s.d r.d,
   add s.e r.e, add s.f r.f, add s.g r.g, add s.h r.h⟩

def beWord (b0 b1 b2 b3 : UInt8) : Nat :=
  b0.toNat * 2 ^ 24 + b1.toNat * 2 ^ 16 + b2.toNat * 2 ^ 8 + b3.toNat

def toWords : Bytes → List Nat
  | b0 :: b1 :: b2 :: b3 :: t => beWord b0 b1 b2 b3 :: toWords t
  | _ => []

def beBytes (n w : Nat) : Bytes :=
  (List.range n).map fun i => UInt8.ofNat (w / 2 ^ (8 * (n - 1 - i)))

def pad (msg : Bytes) : Bytes :=
  msg ++ 0x80 :: List.replicate ((119 - msg.length % 64) % 64) 0 ++ beBytes 8 (8 * msg.length)

def blocks : Nat → List Nat → Words → Words
  | 0, _, s => s
  | n + 1, w, s => blocks n (w.drop 16) (compress s (w.take 16))

def digest (s : Words) : Hash :=
  ⟨beBytes 4 s.a ++ beBytes 4 s.b ++ beBytes 4 s.c ++ beBytes 4 s.d ++
    beBytes 4 s.e ++ beBytes 4 s.f ++ beBytes 4 s.g ++ beBytes 4 s.h, by simp [beBytes]⟩

def sha256 (msg : Bytes) : Hash :=
  let w := toWords (pad msg)
  digest (blocks (w.length / 16) w initial)

example : hexstringSafe (sha256 (str "abc")).val =
    str "ba7816bf8f01cfea414140de5dae2223b00361a396177a9cb410ff61f20015ad" := by decide +kernel

end CrustSworker.Sha256

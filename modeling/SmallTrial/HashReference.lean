import Mathlib.Data.Nat.NthRoot.Defs
import Mathlib.Data.Nat.Prime.Basic
import SmallTrial.HashModel

/-! SHA-256 as FIPS 180-4 defines it, on messages of whole bytes: the constants from the roots of the
first primes, the padded message cut into blocks, the message schedule, the rounds on the working
variables `a` to `h`, and the hash value in big-endian order. -/

namespace SmallTrial.Hash.Fips

/-! ### Functions and constants -/

def ch (x y z : Word) : Word := (x &&& y) ^^^ (~~~x &&& z)
def maj (x y z : Word) : Word := (x &&& y) ^^^ (x &&& z) ^^^ (y &&& z)
def bigSigma0 (x : Word) : Word := x.rotateRight 2 ^^^ x.rotateRight 13 ^^^ x.rotateRight 22
def bigSigma1 (x : Word) : Word := x.rotateRight 6 ^^^ x.rotateRight 11 ^^^ x.rotateRight 25
def smallSigma0 (x : Word) : Word := x.rotateRight 7 ^^^ x.rotateRight 18 ^^^ (x >>> 3)
def smallSigma1 (x : Word) : Word := x.rotateRight 17 ^^^ x.rotateRight 19 ^^^ (x >>> 10)

/-- The first 64 primes. -/
def primes : List Nat := (List.range 312).filter fun p => p.Prime

/-- The first 32 bits of the fractional parts of the cube roots of the primes. -/
def K (t : Nat) : Word := BitVec.ofNat 32 (Nat.nthRoot 3 (primes.getD t 0 * 2 ^ 96))

/-- The first 32 bits of the fractional parts of the square roots of the primes. -/
def H (t : Nat) : Word := BitVec.ofNat 32 (Nat.nthRoot 2 (primes.getD t 0 * 2 ^ 64))

/-! ### Padding -/

/-- The zero bits after the bit 1: the least number `k` with `l + 1 + k ≡ 448 (mod 512)`. -/
def zeroBits (l : Nat) : Nat := (959 - l % 512) % 512

/-- The message, the bit 1 and seven zero bits in one byte, the other zeros, the length in bits. -/
def pad (data : List Byte) : List Byte :=
  data ++ [0x80] ++ List.replicate ((zeroBits (8 * data.length) - 7) / 8) 0 ++
    toBeBytes (8 * data.length)

/-- Block `i` of a padded message. -/
def blockAt (message : List Byte) (i : Nat) : Block := .ofFn fun j => message.getD (64 * i + j) 0

def blocks (message : List Byte) : List Block := (List.range (message.length / 64)).map (blockAt message)

/-! ### Hash computation -/

/-- The 16 words of a block. -/
def wordAt (block : Block) (t : Nat) (h : t < 16) : Word :=
  block[4 * t] ++ block[4 * t + 1] ++ block[4 * t + 2] ++ block[4 * t + 3]

def schedule (block : Block) (t : Nat) : Word :=
  if h : t < 16 then wordAt block t h
  else smallSigma1 (schedule block (t - 2)) + schedule block (t - 7) +
    smallSigma0 (schedule block (t - 15)) + schedule block (t - 16)

/-- The eight words of a hash value, which the working variables `a` to `h` start with. -/
@[ext] structure Vars where
  (a b c d e f g h : Word)

def Vars.words (v : Vars) : List Word := [v.a, v.b, v.c, v.d, v.e, v.f, v.g, v.h]

def Vars.round (k w : Word) (v : Vars) : Vars :=
  let t₁ := v.h + bigSigma1 v.e + ch v.e v.f v.g + k + w
  let t₂ := bigSigma0 v.a + maj v.a v.b v.c
  ⟨t₁ + t₂, v.a, v.b, v.c, v.d + t₁, v.e, v.f, v.g⟩

/-- The working variables after `t` rounds. -/
def rounds (hash : Vars) (block : Block) : Nat → Vars
  | 0 => hash
  | t + 1 => (rounds hash block t).round (K t) (schedule block t)

def Vars.addTo (hash v : Vars) : Vars :=
  ⟨v.a + hash.a, v.b + hash.b, v.c + hash.c, v.d + hash.d,
    v.e + hash.e, v.f + hash.f, v.g + hash.g, v.h + hash.h⟩

def compress (hash : Vars) (block : Block) : Vars := hash.addTo (rounds hash block 64)

def initialHash : Vars := ⟨H 0, H 1, H 2, H 3, H 4, H 5, H 6, H 7⟩

/-- Byte `j` of a word, the most significant byte first. -/
def byteOf (w : Word) (j : Nat) : Byte := BitVec.ofNat 8 (w.toNat / 256 ^ (3 - j))

def bytesOf (w : Word) : List Byte := [byteOf w 0, byteOf w 1, byteOf w 2, byteOf w 3]

/-- The 32 bytes of the hash value of a message. -/
def sha256 (data : List Byte) : List Byte :=
  ((blocks (pad data)).foldl compress initialHash).words.flatMap bytesOf

end SmallTrial.Hash.Fips

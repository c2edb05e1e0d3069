import Mathlib.Algebra.Order.Ring.Nat

/-! `Sha256` of the `SHA256` crate, with every check a debug build makes: arithmetic on `usize` and
`u64`, the assertion, slice bounds and lengths, and the bounds of the raw reads of blocks. The type
of `state` and the function `one` that absorbs a block are parameters of the code that cuts and pads
the message; `digest` runs it with `dealOne`. -/

namespace SmallTrial.Hash

abbrev Byte := BitVec 8
abbrev Word := BitVec 32
abbrev Block := Vector Byte 64
abbrev HashState := Vector Word 8

/-- What ends a call without a result; `rawRead` is a read outside the buffer. -/
inductive Fault where
  | overflow
  | assertion
  | index
  | copyLength
  | rawRead
  deriving DecidableEq

instance [DecidableEq α] : DecidableEq (Except Fault α)
  | .ok a, .ok b => decidable_of_iff (a = b) (by rw [Except.ok.injEq])
  | .error a, .error b => decidable_of_iff (a = b) (by rw [Except.error.injEq])
  | .ok _, .error _ => isFalse nofun
  | .error _, .ok _ => isFalse nofun

/-! ### Checked operations -/

def checkedAdd (a b : Nat) : Except Fault Nat :=
  if a + b < 2 ^ 64 then .ok (a + b) else .error .overflow

def checkedMul (a b : Nat) : Except Fault Nat :=
  if a * b < 2 ^ 64 then .ok (a * b) else .error .overflow

def checkedSub (a b : Nat) : Except Fault Nat :=
  if b ≤ a then .ok (a - b) else .error .overflow

/-- `assert!(c)` -/
def check (c : Prop) [Decidable c] : Except Fault Unit := if c then .ok () else .error .assertion

/-- `&*(bytes.as_ptr().add(offset) as *const [u8; 64])` -/
def readBlock (bytes : List Byte) (offset : Nat) : Except Fault Block :=
  if offset + 64 ≤ bytes.length then .ok (.ofFn fun i => bytes.getD (offset + i) 0)
  else .error .rawRead

/-- `dst[lo..hi].copy_from_slice(src)` -/
def copyFromSlice {n : Nat} (dst : Vector Byte n) (lo hi : Nat) (src : List Byte) :
    Except Fault (Vector Byte n) :=
  if lo ≤ hi ∧ hi ≤ n then
    if src.length = hi - lo then
      .ok (.ofFn fun i => if lo ≤ i ∧ i < hi then src.getD (i - lo) 0 else dst[i])
    else .error .copyLength
  else .error .index

/-- `&data[offset..]` -/
def sliceFrom (data : List Byte) (offset : Nat) : Except Fault (List Byte) :=
  if offset ≤ data.length then .ok (data.drop offset) else .error .index

/-- `block[i] = value` -/
def setByte {n : Nat} (block : Vector Byte n) (i : Nat) (value : Byte) : Except Fault (Vector Byte n) :=
  if h : i < n then .ok (block.set i value h) else .error .index

/-- `u64::to_be_bytes` -/
def toBeBytes (n : Nat) : List Byte := (List.range 8).map fun i => BitVec.ofNat 8 (n >>> (8 * (7 - i)))

/-- `u32::from_be_bytes` -/
def fromBeBytes (b₀ b₁ b₂ b₃ : Byte) : Word := b₀ ++ b₁ ++ b₂ ++ b₃

/-! ### The compression -/

def K : Vector Word 64 := #v[
  0x428a2f98, 0x71374491, 0xb5c0fbcf, 0xe9b5dba5, 0x3956c25b, 0x59f111f1, 0x923f82a4, 0xab1c5ed5,
  0xd807aa98, 0x12835b01, 0x243185be, 0x550c7dc3, 0x72be5d74, 0x80deb1fe, 0x9bdc06a7, 0xc19bf174,
  0xe49b69c1, 0xefbe4786, 0x0fc19dc6, 0x240ca1cc, 0x2de92c6f, 0x4a7484aa, 0x5cb0a9dc, 0x76f988da,
  0x983e5152, 0xa831c66d, 0xb00327c8, 0xbf597fc7, 0xc6e00bf3, 0xd5a79147, 0x06ca6351, 0x14292967,
  0x27b70a85, 0x2e1b2138, 0x4d2c6dfc, 0x53380d13, 0x650a7354, 0x766a0abb, 0x81c2c92e, 0x92722c85,
  0xa2bfe8a1, 0xa81a664b, 0xc24b8b70, 0xc76c51a3, 0xd192e819, 0xd6990624, 0xf40e3585, 0x106aa070,
  0x19a4c116, 0x1e376c08, 0x2748774c, 0x34b0bcb5, 0x391c0cb3, 0x4ed8aa4a, 0x5b9cca4f, 0x682e6ff3,
  0x748f82ee, 0x78a5636f, 0x84c87814, 0x8cc70208, 0x90befffa, 0xa4506ceb, 0xbef9a3f7, 0xc67178f2]

/-- The loop over `w[0..16]`; the other words are still 0. -/
def loadWords (data : Block) : Vector Word 64 :=
  .ofFn fun i =>
    if h : i.val < 16 then
      fromBeBytes data[4 * i.val] data[4 * i.val + 1] data[4 * i.val + 2] data[4 * i.val + 3]
    else 0

/-- The body of the loop `for i in 16..64`. -/
def extendWords (i : Nat) (hlo : 16 ≤ i) (hhi : i < 64) (w : Vector Word 64) : Vector Word 64 :=
  let s0 := w[i - 15].rotateRight 7 ^^^ w[i - 15].rotateRight 18 ^^^ (w[i - 15] >>> 3)
  let s1 := w[i - 2].rotateRight 17 ^^^ w[i - 2].rotateRight 19 ^^^ (w[i - 2] >>> 10)
  w.set i (w[i - 16] + s0 + w[i - 7] + s1)

/-- The body of the loop `for i in 0..64`, with its assignments in order. -/
def rotateState (k w : Word) (state : HashState) : HashState :=
  let ch := (state[4] &&& state[5]) ^^^ (~~~state[4] &&& state[6])
  let maj := (state[0] &&& state[1]) ^^^ (state[0] &&& state[2]) ^^^ (state[1] &&& state[2])
  let s0 := state[0].rotateRight 2 ^^^ state[0].rotateRight 13 ^^^ state[0].rotateRight 22
  let s1 := state[4].rotateRight 6 ^^^ state[4].rotateRight 11 ^^^ state[4].rotateRight 25
  let t0 := state[7] + s1 + ch + k + w
  let t1 := s0 + maj
  let state := state.set 7 state[6]
  let state := state.set 6 state[5]
  let state := state.set 5 state[4]
  let state := state.set 4 (state[3] + t0)
  let state := state.set 3 state[2]
  let state := state.set 2 state[1]
  let state := state.set 1 state[0]
  state.set 0 (t0 + t1)

def messageWords (data : Block) : Vector Word 64 :=
  Nat.fold 48 (fun j _ w => extendWords (16 + j) (by omega) (by omega) w) (loadWords data)

def runRounds (w : Vector Word 64) (state : HashState) : HashState :=
  Nat.fold 64 (fun i _ state => rotateState K[i] w[i] state) state

def dealOne (self : HashState) (data : Block) : HashState :=
  .zipWith (· + ·) self (runRounds (messageWords data) self)

/-! ### Cutting and padding the message -/

structure Sha256 (σ : Type) where
  state : σ
  completedDataBlocks : Nat
  pending : Block
  numPending : Nat

def Sha256.default {σ : Type} (state : σ) : Sha256 σ := ⟨state, 0, .replicate 64 0, 0⟩

section Absorb

variable {σ : Type} (one : σ → Block → σ)

/-- The loop over the full blocks of `deal_block`. -/
def dealFullBlocks (data : List Byte) : Nat → Nat → Sha256 σ → Except Fault (Nat × Sha256 σ)
  | 0, offset, self => .ok (offset, self)
  | blockNum + 1, offset, self => do
      let block ← readBlock data offset
      let completedDataBlocks ← checkedAdd self.completedDataBlocks 1
      let offset ← checkedAdd offset 64
      dealFullBlocks data blockNum offset { self with state := one self.state block, completedDataBlocks }

/-- `block_num` and `remain_num`: the last 1 to 64 bytes are never a full block. -/
def blockCounts (len : Nat) : Except Fault (Nat × Nat) := do
  let blockNum := len / 64
  let remainNum := len % 64
  if remainNum = 0 then return (← checkedSub blockNum 1, ← checkedAdd remainNum 64)
  else return (blockNum, remainNum)

def dealBlock (self : Sha256 σ) (data : List Byte) : Except Fault (Sha256 σ) := do
  let (blockNum, remainNum) ← blockCounts data.length
  check (blockNum < 2 ^ 63)  -- `(block_num as isize) >= 0`
  let (offset, self) ← dealFullBlocks one data blockNum 0 self
  let pending ← copyFromSlice self.pending 0 remainNum (← sliceFrom data offset)
  return { self with pending, numPending := remainNum }

/-- `self.completed_data_blocks * 512 + self.num_pending as u64 * 8` -/
def Sha256.bits (self : Sha256 σ) : Except Fault Nat := do
  checkedAdd (← checkedMul self.completedDataBlocks 512) (← checkedMul self.numPending 8)

/-- `deal_remain` up to the last block; what is left is to write out the state. -/
def dealRemain (self : Sha256 σ) : Except Fault σ := do
  let bits ← self.bits
  if self.numPending < 56 then
    let block ← setByte self.pending self.numPending 0x80
    let block ← copyFromSlice block 56 64 (toBeBytes bits)
    return one self.state block
  else
    let blocks : Vector Byte 128 := .replicate 128 0
    let blocks ← copyFromSlice blocks 0 64 self.pending.toList
    let blocks ← setByte blocks self.numPending 0x80
    let blocks ← copyFromSlice blocks 120 128 (toBeBytes bits)
    let first ← readBlock blocks.toList 0
    let second ← readBlock blocks.toList 64
    return one (one self.state first) second

/-- The state `digest` ends in when it starts in `state`. -/
def absorb (state : σ) (data : List Byte) : Except Fault σ := do
  dealRemain one (← dealBlock one (.default state) data)

end Absorb

/-! ### The digest -/

/-- The byte order of the machine. -/
inductive Endian where
  | little
  | big

/-- `u32::swap_bytes` -/
def swapBytes (w : Word) : Word :=
  fromBeBytes (w.extractLsb' 0 8) (w.extractLsb' 8 8) (w.extractLsb' 16 8) (w.extractLsb' 24 8)

/-- `u32::to_be` -/
def Endian.toBe : Endian → Word → Word
  | .little, w => swapBytes w
  | .big, w => w

/-- The byte of a word at address `j` of the four it takes in memory. -/
def Endian.byteAt : Endian → Word → Fin 4 → Byte
  | .little, w, j => w.extractLsb' (8 * j) 8
  | .big, w, j => w.extractLsb' (8 * (3 - j)) 8

/-- The end of `deal_remain`: the words are turned to big-endian and read as bytes. -/
def output (e : Endian) (state : HashState) : Vector Byte 32 :=
  let state := state.map e.toBe
  .ofFn fun i => e.byteAt state[i.val / 4] ⟨i % 4, Nat.mod_lt _ (by decide)⟩

def initialState : HashState :=
  #v[0x6a09e667, 0xbb67ae85, 0x3c6ef372, 0xa54ff53a, 0x510e527f, 0x9b05688c, 0x1f83d9ab, 0x5be0cd19]

def digest (e : Endian) (data : List Byte) : Except Fault (Vector Byte 32) := do
  return output e (← absorb dealOne initialState data)

end SmallTrial.Hash

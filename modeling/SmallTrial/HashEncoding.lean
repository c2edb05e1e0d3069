import SmallTrial.HashDigest

/-! The blocks that `digest` passes to `deal_one` are a suffix-free code of the message: the last eight
bytes hold its length, which fixes the number of blocks, and the message is what the blocks start with. -/

namespace SmallTrial.Hash

open Fips

/-- The blocks `digest` passes to `deal_one`, oldest first. -/
def dealtBlocks (data : List Byte) : Except Fault (List Block) :=
  absorb (fun dealt block => dealt ++ [block]) [] data

/-- The number that big-endian bytes stand for. -/
def ofBeBytes (bytes : List Byte) : Nat := bytes.foldl (fun n byte => n * 256 + byte.toNat) 0

/-- The bytes of a list of blocks. -/
def bytesOfBlocks (dealt : List Block) : List Byte := dealt.flatMap Vector.toList

/-- The last eight bytes. -/
def trailer (bytes : List Byte) : List Byte := bytes.drop (bytes.length - 8)

/-- The message that was padded to a list of blocks. -/
def unpad (dealt : List Block) : List Byte :=
  (bytesOfBlocks dealt).take (ofBeBytes (trailer (bytesOfBlocks dealt)) / 8)

/-! ### The length field -/

theorem ofBeBytes_append (front back : List Byte) :
    ofBeBytes (front ++ back) = ofBeBytes front * 256 ^ back.length + ofBeBytes back := by
  have hfold : ∀ n, back.foldl (fun n byte => n * 256 + byte.toNat) n =
      n * 256 ^ back.length + ofBeBytes back := by
    unfold ofBeBytes
    induction back with
    | nil => simp
    | cons byte back ih =>
        intro n
        rw [List.foldl_cons, List.foldl_cons, ih, ih (0 * 256 + byte.toNat), List.length_cons, pow_succ',
          Nat.add_mul, Nat.mul_assoc, Nat.zero_mul, Nat.zero_add, Nat.add_assoc]
  rw [ofBeBytes, List.foldl_append, hfold]
  rfl

theorem ofBeBytes_lt (bytes : List Byte) : ofBeBytes bytes < 256 ^ bytes.length := by
  induction bytes with
  | nil => exact Nat.one_pos
  | cons byte bytes ih =>
      have hbyte := byte.isLt
      have hhead : ofBeBytes [byte] = byte.toNat := Nat.zero_add _
      rw [← List.singleton_append, ofBeBytes_append, hhead, List.length_append, List.length_singleton,
        pow_add]
      calc byte.toNat * 256 ^ bytes.length + ofBeBytes bytes
          < (byte.toNat + 1) * 256 ^ bytes.length := by rw [Nat.succ_mul]; omega
        _ ≤ 256 ^ 1 * 256 ^ bytes.length := Nat.mul_le_mul_right _ (by omega)

/-- The last `k` bytes of a number. -/
theorem ofBeBytes_shiftRight (k n : Nat) :
    ofBeBytes ((List.range k).map fun i => BitVec.ofNat 8 (n >>> (8 * (k - 1 - i)))) = n % 256 ^ k := by
  induction k generalizing n with
  | zero => exact (Nat.mod_one n).symm
  | succ k ih =>
      have hinit : (List.range k).map (fun i => BitVec.ofNat 8 (n >>> (8 * (k + 1 - 1 - i)))) =
          (List.range k).map fun i => BitVec.ofNat 8 ((n / 256) >>> (8 * (k - 1 - i))) := by
        refine List.map_congr_left fun i hi => congrArg _ ?_
        have hexp : 8 * (k + 1 - 1 - i) = 8 + 8 * (k - 1 - i) := by
          have := List.mem_range.mp hi
          omega
        rw [hexp, Nat.shiftRight_add, Nat.shiftRight_eq_div_pow n 8]
      have hlast : ofBeBytes [BitVec.ofNat 8 (n >>> (8 * (k + 1 - 1 - k)))] = n % 256 := by
        simp [ofBeBytes]
      rw [List.range_succ, List.map_append, hinit, ofBeBytes_append, ih, List.map_singleton, hlast,
        List.length_singleton, pow_one, pow_succ', Nat.mod_mul, Nat.mul_comm, Nat.add_comm]

theorem ofBeBytes_toBeBytes {n : Nat} (hn : n < 2 ^ 64) : ofBeBytes (toBeBytes n) = n :=
  (ofBeBytes_shiftRight 8 n).trans (Nat.mod_eq_of_lt hn)

theorem trailer_append (bytes : List Byte) {last : List Byte} (hlast : 8 ≤ last.length) :
    trailer (bytes ++ last) = trailer last := by
  have hsum : (bytes ++ last).length - 8 = bytes.length + (last.length - 8) := by
    rw [List.length_append]
    omega
  rw [trailer, hsum, List.drop_length_add_append, trailer]

/-! ### The padded message -/

theorem pad_mod (data : List Byte) : (pad data).length % 64 = 0 := by
  simp only [pad, zeroBits, List.length_append, List.length_singleton, List.length_replicate,
    toBeBytes_length]
  omega

theorem pad_length_congr {a b : List Byte} (h : a.length = b.length) :
    (pad a).length = (pad b).length := by
  simp only [pad, h, List.length_append, List.length_singleton, List.length_replicate,
    toBeBytes_length]

theorem le_pad_length (data : List Byte) : 8 ≤ (pad data).length := by
  simp only [pad, List.length_append, toBeBytes_length]
  omega

theorem trailer_pad (data : List Byte) : trailer (pad data) = toBeBytes (8 * data.length) := by
  have hlen := toBeBytes_length (8 * data.length)
  rw [pad, trailer_append _ (by omega), trailer, hlen, Nat.sub_self, List.drop_zero]

theorem take_pad (data : List Byte) : (pad data).take data.length = data := by
  rw [pad, List.append_assoc, List.append_assoc, List.take_left]

/-! ### The bytes of the blocks -/

theorem blockAt_toList {message : List Byte} {i : Nat} (hi : 64 * i + 64 ≤ message.length) :
    (blockAt message i).toList = (message.drop (64 * i)).take 64 := by
  refine List.ext_getElem ?_ fun j hj hj' => ?_
  · rw [Vector.length_toList, List.length_take, List.length_drop]
    omega
  · rw [Vector.length_toList] at hj
    rw [Vector.getElem_toList, blockAt_get, List.getElem_take, List.getElem_drop,
      List.getD_eq_getElem _ _ (by omega)]

theorem bytesOfBlocks_blockAt {message : List Byte} {k : Nat} (hk : 64 * k ≤ message.length) :
    bytesOfBlocks ((List.range k).map (blockAt message)) = message.take (64 * k) := by
  induction k with
  | zero => rfl
  | succ k ih =>
      rw [List.range_succ, List.map_append, bytesOfBlocks, List.flatMap_append, ← bytesOfBlocks,
        ih (by omega), List.map_singleton, List.flatMap_singleton, blockAt_toList (by omega),
        Nat.mul_succ, List.take_add]

theorem bytesOfBlocks_blocks {message : List Byte} (hmod : message.length % 64 = 0) :
    bytesOfBlocks (blocks message) = message := by
  have hlen : 64 * (message.length / 64) = message.length := by omega
  rw [blocks, bytesOfBlocks_blockAt (by omega), hlen, List.take_length]

theorem bytesOfBlocks_pad (data : List Byte) : bytesOfBlocks (blocks (pad data)) = pad data :=
  bytesOfBlocks_blocks (pad_mod data)

/-! ### Decoding -/

theorem dealtBlocks_ok {data : List Byte} (hpos : 1 ≤ data.length) (hdata : data.length < 2 ^ 61) :
    dealtBlocks data = .ok (blocks (pad data)) := by
  have hfold : ∀ dealt rest : List Block,
      rest.foldl (fun dealt block => dealt ++ [block]) dealt = dealt ++ rest := by
    intro dealt rest
    induction rest generalizing dealt with
    | nil => exact (List.append_nil dealt).symm
    | cons block rest ih => rw [List.foldl_cons, ih, List.append_assoc, List.singleton_append]
  rw [dealtBlocks, absorb_ok _ hpos hdata, hfold, List.nil_append]

theorem unpad_pad {data : List Byte} (hdata : data.length < 2 ^ 61) :
    unpad (blocks (pad data)) = data := by
  have hlen : 8 * data.length / 8 = data.length := by omega
  rw [unpad, bytesOfBlocks_pad, trailer_pad, ofBeBytes_toBeBytes (by omega), hlen, take_pad]

/-- The last block of a suffix is the last block, so the lengths agree, and so do the blocks. -/
theorem eq_of_suffix {a b : List Byte} (ha : a.length < 2 ^ 61) (hb : b.length < 2 ^ 61)
    (h : blocks (pad a) <:+ blocks (pad b)) : a = b := by
  have htrailer : trailer (pad b) = trailer (pad a) := by
    obtain ⟨front, hfront⟩ := h
    have hbytes : pad b = bytesOfBlocks front ++ pad a := by
      rw [← bytesOfBlocks_pad b, ← hfront, bytesOfBlocks, List.flatMap_append, ← bytesOfBlocks,
        ← bytesOfBlocks, bytesOfBlocks_pad]
    rw [hbytes, trailer_append _ (le_pad_length a)]
  have hlen : b.length = a.length := by
    have hfield := congrArg ofBeBytes htrailer
    rw [trailer_pad, trailer_pad, ofBeBytes_toBeBytes (by omega), ofBeBytes_toBeBytes (by omega)]
      at hfield
    omega
  have hcount : (blocks (pad a)).length = (blocks (pad b)).length := by
    rw [blocks, blocks, List.length_map, List.length_map, pad_length_congr hlen]
  rw [← unpad_pad ha, h.eq_of_length hcount, unpad_pad hb]

/-- **The padding is a suffix-free code.** The blocks that the state of `digest` absorbs determine the
message, and for different messages neither list of blocks is a suffix of the other. -/
theorem dealtBlocks_suffixFree (a b : List Byte) (ha : 1 ≤ a.length) (ha' : a.length < 2 ^ 61)
    (hb : 1 ≤ b.length) (hb' : b.length < 2 ^ 61) :
    ∃ as bs, dealtBlocks a = .ok as ∧ dealtBlocks b = .ok bs ∧
      (∀ e, digest e a = .ok (output e (as.foldl dealOne initialState))) ∧
      (∀ e, digest e b = .ok (output e (bs.foldl dealOne initialState))) ∧
      unpad as = a ∧ unpad bs = b ∧ (a ≠ b → as ≠ bs ∧ ¬as <:+ bs ∧ ¬bs <:+ as) := by
  refine ⟨blocks (pad a), blocks (pad b), dealtBlocks_ok ha ha', dealtBlocks_ok hb hb',
    fun e => digest_ok e ha ha', fun e => digest_ok e hb hb', unpad_pad ha', unpad_pad hb',
    fun hne => ⟨?_, ?_, ?_⟩⟩
  · intro heq
    have hsuffix : blocks (pad a) <:+ blocks (pad b) := ⟨[], heq⟩
    exact hne (eq_of_suffix ha' hb' hsuffix)
  · exact fun h => hne (eq_of_suffix ha' hb' h)
  · exact fun h => hne (eq_of_suffix hb' ha' h).symm

/-- A message, and the message with the first byte of its padding. -/
theorem dealtBlocks_suffixFree_marker :
    ∃ as bs, dealtBlocks [0x61] = .ok as ∧ dealtBlocks [0x61, 0x80] = .ok bs ∧
      (∀ e, digest e [0x61] = .ok (output e (as.foldl dealOne initialState))) ∧
      (∀ e, digest e [0x61, 0x80] = .ok (output e (bs.foldl dealOne initialState))) ∧
      unpad as = [0x61] ∧ unpad bs = [0x61, 0x80] ∧
      (([0x61] : List Byte) ≠ [0x61, 0x80] → as ≠ bs ∧ ¬as <:+ bs ∧ ¬bs <:+ as) :=
  dealtBlocks_suffixFree [0x61] [0x61, 0x80] (by decide) (by decide) (by decide) (by decide)

end SmallTrial.Hash

import Mathlib.Data.List.GetD
import SmallTrial.HashReference

/-! `deal_block` and `deal_remain` cut and pad a message as FIPS 180-4 does, for any state type and any
function that absorbs a block. A message of `64 * n + r` bytes with `1 ≤ r ≤ 64` leaves its last `r`
bytes in `pending`, and one or two more blocks follow as `r` is below 56 or not. -/

namespace SmallTrial.Hash

open Fips

/-! ### Checked operations -/

section Checked

variable {a b : Nat}

theorem checkedAdd_ok (h : a + b < 2 ^ 64) : checkedAdd a b = .ok (a + b) := if_pos h

theorem checkedMul_ok (h : a * b < 2 ^ 64) : checkedMul a b = .ok (a * b) := if_pos h

theorem checkedSub_ok (h : b ≤ a) : checkedSub a b = .ok (a - b) := if_pos h

theorem sliceFrom_ok {data : List Byte} {offset : Nat} (h : offset ≤ data.length) :
    sliceFrom data offset = .ok (data.drop offset) := if_pos h

theorem setByte_ok {n : Nat} {block : Vector Byte n} {i : Nat} {value : Byte} (h : i < n) :
    setByte block i value = .ok (block.set i value h) := dif_pos h

theorem copyFromSlice_ok {n : Nat} {dst : Vector Byte n} {lo hi : Nat} {src : List Byte}
    (hlo : lo ≤ hi) (hhi : hi ≤ n) (hlen : src.length = hi - lo) :
    copyFromSlice dst lo hi src =
      .ok (.ofFn fun i => if lo ≤ i ∧ i < hi then src.getD (i - lo) 0 else dst[i]) := by
  rw [copyFromSlice, if_pos ⟨hlo, hhi⟩, if_pos hlen]

end Checked

theorem blockAt_get (message : List Byte) (i j : Nat) (hj : j < 64) :
    (blockAt message i)[j] = message.getD (64 * i + j) 0 := by
  rw [blockAt, Vector.getElem_ofFn]

theorem readBlock_ok {bytes : List Byte} {i : Nat} (h : 64 * i + 64 ≤ bytes.length) :
    readBlock bytes (64 * i) = .ok (blockAt bytes i) := if_pos h

@[simp] theorem toBeBytes_length (n : Nat) : (toBeBytes n).length = 8 := by
  simp [toBeBytes]

/-! ### The padded message -/

section Pad

variable {data : List Byte} {n r : Nat}

/-- The number of zero bytes in the padding. -/
theorem zeroBytes_eq (hlen : data.length = 64 * n + r) (h1 : 1 ≤ r) (h64 : r ≤ 64) :
    (zeroBits (8 * data.length) - 7) / 8 = if r < 56 then 55 - r else 119 - r := by
  unfold zeroBits
  split <;> omega

theorem pad_length (hlen : data.length = 64 * n + r) (h1 : 1 ≤ r) (h64 : r ≤ 64) :
    (pad data).length = if r < 56 then 64 * (n + 1) else 64 * (n + 2) := by
  simp only [pad, zeroBytes_eq hlen h1 h64, List.length_append, List.length_singleton,
    List.length_replicate, toBeBytes_length]
  split <;> omega

/-- Byte `i` of the padded message: a byte of the message, the bit 1, a zero, or a byte of the length. -/
theorem pad_getD (i : Nat) {z : Nat} (hz : (zeroBits (8 * data.length) - 7) / 8 = z) :
    (pad data).getD i 0 =
      if i < data.length then data.getD i 0
      else if i = data.length then 0x80
      else if i < data.length + 1 + z then 0
      else (toBeBytes (8 * data.length)).getD (i - (data.length + 1 + z)) 0 := by
  rw [pad, hz]
  by_cases h₁ : i < data.length
  · rw [if_pos h₁, List.append_assoc, List.append_assoc, List.getD_append _ _ _ _ h₁]
  · rw [if_neg h₁, List.append_assoc, List.append_assoc, List.getD_append_right _ _ _ _ (by omega)]
    by_cases h₂ : i = data.length
    · subst h₂
      simp
    · obtain ⟨j, rfl⟩ : ∃ j, i = data.length + 1 + j := ⟨i - (data.length + 1), by omega⟩
      have hj : data.length + 1 + j - data.length = j + 1 := by omega
      rw [if_neg h₂, List.singleton_append, hj, List.getD_cons_succ]
      by_cases h₃ : j < z
      · rw [if_pos (by omega), List.getD_append _ _ _ _ (by simpa using h₃),
          List.getD_replicate _ h₃]
      · rw [if_neg (by omega), List.getD_append_right _ _ _ _ (by simpa using h₃),
          List.length_replicate]
        congr 1
        omega

end Pad

/-! ### The full blocks -/

variable {σ : Type} (one : σ → Block → σ)

theorem dealFullBlocks_ok {data : List Byte} (hdata : data.length < 2 ^ 61) {k o : Nat}
    (hfull : 64 * (o + k) ≤ data.length) (self : Sha256 σ)
    (hdone : self.completedDataBlocks + k < 2 ^ 64) :
    dealFullBlocks one data k (64 * o) self = .ok (64 * (o + k), { self with
      state := ((List.range' o k).map (blockAt data)).foldl one self.state
      completedDataBlocks := self.completedDataBlocks + k }) := by
  induction k generalizing o self with
  | zero => rfl
  | succ k ih =>
      have hread : readBlock data (64 * o) = .ok (blockAt data o) := readBlock_ok (by omega)
      have hnext : checkedAdd (64 * o) 64 = .ok (64 * (o + 1)) := checkedAdd_ok (by omega)
      have hcount : checkedAdd self.completedDataBlocks 1 = .ok (self.completedDataBlocks + 1) :=
        checkedAdd_ok (by omega)
      rw [dealFullBlocks, hread, hnext, hcount]
      refine (ih (o := o + 1) (by omega) _ (by simp only; omega)).trans ?_
      rw [List.range'_succ, List.map_cons, List.foldl_cons]
      simp only [Nat.add_assoc, Nat.add_comm 1 k]

section Message

variable {data : List Byte} {n r : Nat}

theorem blockCounts_ok (hlen : data.length = 64 * n + r) (h1 : 1 ≤ r) (h64 : r ≤ 64) :
    blockCounts data.length = .ok (n, r) := by
  rw [blockCounts]
  by_cases hr : r = 64
  · have hdiv : data.length / 64 = n + 1 := by omega
    have hmod : data.length % 64 = 0 := by omega
    rw [hdiv, hmod, if_pos rfl, checkedSub_ok (Nat.le_add_left 1 n), checkedAdd_ok (by decide), hr]
    rfl
  · have hdiv : data.length / 64 = n := by omega
    have hmod : data.length % 64 = r := by omega
    rw [hdiv, hmod, if_neg (by omega)]
    rfl

/-- `deal_block` has absorbed the full blocks and keeps the rest in `pending`, followed by zeros. -/
theorem dealBlock_ok (hlen : data.length = 64 * n + r) (h1 : 1 ≤ r) (h64 : r ≤ 64)
    (hdata : data.length < 2 ^ 61) (state : σ) :
    dealBlock one (.default state) data =
      .ok ⟨((List.range n).map (blockAt data)).foldl one state, n, blockAt data n, r⟩ := by
  have hblocks := dealFullBlocks_ok one hdata (k := n) (o := 0) (by omega) (.default state)
    (by simp only [Sha256.default]; omega)
  have hrest : sliceFrom data (64 * n) = .ok (data.drop (64 * n)) := sliceFrom_ok (by omega)
  have hcopy : copyFromSlice (Sha256.default state).pending 0 r (data.drop (64 * n)) =
      .ok (blockAt data n) := by
    refine (copyFromSlice_ok (Nat.zero_le r) h64 (by rw [List.length_drop]; omega)).trans ?_
    refine congrArg Except.ok (Vector.ext fun j hj => ?_)
    rw [blockAt_get, Vector.getElem_ofFn]
    dsimp only
    split
    · simp [List.getD_eq_getElem?_getD]
    · rw [List.getD_eq_default _ _ (by omega)]
      exact Vector.getElem_replicate hj
  rw [Nat.zero_add, ← List.range_eq_range'] at hblocks
  rw [dealBlock, blockCounts_ok hlen h1 h64]
  have hcheck : check (n < 2 ^ 63) = .ok () := if_pos (by omega)
  simp only [bind, Except.bind, hcheck, hblocks, hrest, hcopy]
  simp only [Sha256.default, Nat.zero_add]
  rfl

/-! ### The last blocks -/

theorem bits_ok (hlen : data.length = 64 * n + r) (hdata : data.length < 2 ^ 61) (state : σ)
    (pending : Block) : Sha256.bits ⟨state, n, pending, r⟩ = .ok (8 * data.length) := by
  have hblocks : checkedMul n 512 = .ok (n * 512) := checkedMul_ok (by omega)
  have hrest : checkedMul r 8 = .ok (r * 8) := checkedMul_ok (by omega)
  have hsum : n * 512 + r * 8 = 8 * data.length := by omega
  rw [Sha256.bits, hblocks, hrest, ← hsum]
  exact checkedAdd_ok (by omega)

/-- The bytes after the full blocks: the length stands at the end of the `m` bytes, `m` being the
size of one block or of two. -/
theorem pad_getD_tail (hlen : data.length = 64 * n + r) (h1 : 1 ≤ r) (h64 : r ≤ 64) {m : Nat}
    (hm : m = if r < 56 then 64 else 128) (j : Nat) :
    (pad data).getD (64 * n + j) 0 =
      if m - 8 ≤ j then (toBeBytes (8 * data.length)).getD (j - (m - 8)) 0
      else if r = j then 0x80
      else data.getD (64 * n + j) 0 := by
  have hr : r + 8 < m := by
    split at hm <;> omega
  have hzero : (zeroBits (8 * data.length) - 7) / 8 = m - 9 - r := by
    rw [zeroBytes_eq hlen h1 h64, hm]
    split <;> omega
  rw [pad_getD _ hzero]
  by_cases hdata : 64 * n + j < data.length
  · rw [if_pos hdata, if_neg (by omega), if_neg (by omega)]
  · rw [if_neg hdata, List.getD_eq_default data _ (by omega)]
    by_cases hj : r = j
    · rw [if_pos (by omega), if_neg (by omega), if_pos hj]
    · rw [if_neg (by omega), if_neg hj]
      by_cases hlast : m - 8 ≤ j
      · rw [if_neg (by omega), if_pos hlast]
        congr 1
        omega
      · rw [if_pos (by omega), if_neg hlast]

/-- The end of both branches: the bit 1 and the length are written into a buffer that holds the
rest of the message and zeros. -/
theorem finish_ok (hlen : data.length = 64 * n + r) (h1 : 1 ≤ r) (h64 : r ≤ 64) {m : Nat}
    (hm : m = if r < 56 then 64 else 128) (buffer : Vector Byte m)
    (hbuffer : ∀ j (hj : j < m), buffer[j] = data.getD (64 * n + j) 0) :
    ∃ marked, setByte buffer r 0x80 = .ok marked ∧
      copyFromSlice marked (m - 8) m (toBeBytes (8 * data.length)) =
        .ok (.ofFn fun j => (pad data).getD (64 * n + j) 0) := by
  have hr : r + 8 < m := by
    split at hm <;> omega
  refine ⟨buffer.set r 0x80, setByte_ok (by omega), ?_⟩
  refine (copyFromSlice_ok (Nat.sub_le m 8) (Nat.le_refl m) ?_).trans ?_
  · rw [toBeBytes_length]
    omega
  · refine congrArg Except.ok (Vector.ext fun j hj => ?_)
    rw [Vector.getElem_ofFn, Vector.getElem_ofFn, pad_getD_tail hlen h1 h64 hm]
    dsimp only [Fin.getElem_fin]
    rw [Vector.getElem_set, hbuffer j hj]
    by_cases hlast : m - 8 ≤ j
    · rw [if_pos ⟨hlast, hj⟩, if_pos hlast]
    · rw [if_neg (fun h => hlast h.1), if_neg hlast]

theorem dealRemain_one (hlen : data.length = 64 * n + r) (h1 : 1 ≤ r) (hr : r < 56)
    (hdata : data.length < 2 ^ 61) (state : σ) :
    dealRemain one ⟨state, n, blockAt data n, r⟩ = .ok (one state (blockAt (pad data) n)) := by
  obtain ⟨block, hset, hcopy⟩ :=
    finish_ok hlen h1 (by omega) (if_pos hr).symm _ (blockAt_get data n)
  rw [dealRemain, bits_ok hlen hdata]
  simp only [bind, Except.bind, if_pos hr, hset]
  rw [hcopy]
  rfl

/-- The full `pending` and 64 zeros are the rest of the message and zeros. -/
theorem copy_pending (hlen : data.length ≤ 64 * n + 64) :
    copyFromSlice (.replicate 128 0) 0 64 (blockAt data n).toList =
      .ok (.ofFn fun j => data.getD (64 * n + j) 0) := by
  refine (copyFromSlice_ok (Nat.zero_le 64) (by decide) Vector.length_toList).trans ?_
  refine congrArg Except.ok (Vector.ext fun j hj => ?_)
  rw [Vector.getElem_ofFn, Vector.getElem_ofFn]
  dsimp only
  split
  · rw [List.getD_eq_getElem _ _ (by rw [Vector.length_toList]; omega), Vector.getElem_toList,
      blockAt_get, Nat.sub_zero]
  · rw [List.getD_eq_default data _ (by omega)]
    exact Vector.getElem_replicate _

/-- A block read from a buffer of two blocks. -/
theorem readBlock_buffer (message : List Byte) {i : Nat} (hi : 64 * i + 64 ≤ 128) :
    readBlock (Vector.ofFn fun j : Fin 128 => message.getD (64 * n + j) 0).toList (64 * i) =
      .ok (blockAt message (n + i)) := by
  refine (readBlock_ok (by rw [Vector.length_toList]; exact hi)).trans ?_
  refine congrArg Except.ok (Vector.ext fun j hj => ?_)
  rw [blockAt_get, blockAt_get, List.getD_eq_getElem _ _ (by rw [Vector.length_toList]; omega),
    Vector.getElem_toList, Vector.getElem_ofFn, Nat.mul_add, Nat.add_assoc]

theorem dealRemain_two (hlen : data.length = 64 * n + r) (hr : 56 ≤ r) (h64 : r ≤ 64)
    (hdata : data.length < 2 ^ 61) (state : σ) :
    dealRemain one ⟨state, n, blockAt data n, r⟩ =
      .ok (one (one state (blockAt (pad data) n)) (blockAt (pad data) (n + 1))) := by
  have hfirst : copyFromSlice (.replicate 128 0) 0 64 (blockAt data n).toList = _ :=
    copy_pending (by omega)
  obtain ⟨blocks, hset, hcopy⟩ := finish_ok hlen (by omega) h64 (if_neg (by omega)).symm
    (.ofFn fun j => data.getD (64 * n + j) 0) (fun j hj => Vector.getElem_ofFn hj)
  have hread₀ := readBlock_buffer (n := n) (pad data) (i := 0) (by decide)
  have hread₁ := readBlock_buffer (n := n) (pad data) (i := 1) (by decide)
  rw [dealRemain, bits_ok hlen hdata]
  simp only [bind, Except.bind, if_neg (show ¬r < 56 by omega), hfirst, hset]
  rw [hcopy]
  simp only [hread₀, hread₁]
  rfl

/-- `deal_block` and `deal_remain` absorb the blocks of the padded message in order. -/
theorem absorb_ok (hpos : 1 ≤ data.length) (hdata : data.length < 2 ^ 61) (state : σ) :
    absorb one state data = .ok ((blocks (pad data)).foldl one state) := by
  obtain ⟨n, r, hlen, h1, h64⟩ : ∃ n r, data.length = 64 * n + r ∧ 1 ≤ r ∧ r ≤ 64 :=
    ⟨(data.length - 1) / 64, (data.length - 1) % 64 + 1, by omega, by omega, by omega⟩
  have hfull : (List.range n).map (blockAt data) = (List.range n).map (blockAt (pad data)) := by
    refine List.map_congr_left fun i hi => Vector.ext fun j hj => ?_
    have := List.mem_range.mp hi
    rw [blockAt_get, blockAt_get, pad_getD _ rfl, if_pos (by omega)]
  rw [absorb, dealBlock_ok one hlen h1 h64 hdata]
  simp only [bind, Except.bind]
  by_cases hr : r < 56
  · have hcount : (pad data).length / 64 = n + 1 := by
      rw [pad_length hlen h1 h64, if_pos hr]
      omega
    rw [dealRemain_one one hlen h1 hr hdata, hfull, blocks, hcount, List.range_succ, List.map_append,
      List.foldl_append]
    rfl
  · have hcount : (pad data).length / 64 = n + 2 := by
      rw [pad_length hlen h1 h64, if_neg hr]
      omega
    rw [dealRemain_two one hlen (by omega) h64 hdata, hfull, blocks, hcount, List.range_succ,
      List.range_succ, List.map_append, List.map_append, List.foldl_append, List.foldl_append]
    rfl

end Message

end SmallTrial.Hash

import SmallTrial.HashCompression
import SmallTrial.HashPadding

/-! `Sha256::digest` computes SHA-256 on every machine, and returns on every message but the empty
one. -/

namespace SmallTrial.Hash

theorem toNat_append_byte {n : Nat} (x : BitVec n) (b : Byte) :
    (x ++ b).toNat = x.toNat * 256 + b.toNat := by
  rw [BitVec.toNat_append, ← Nat.shiftLeft_add_eq_or_of_lt b.isLt, Nat.shiftLeft_eq]

theorem fromBeBytes_toNat (b₀ b₁ b₂ b₃ : Byte) : (fromBeBytes b₀ b₁ b₂ b₃).toNat =
    ((b₀.toNat * 256 + b₁.toNat) * 256 + b₂.toNat) * 256 + b₃.toNat := by
  show ((b₀ ++ b₁ ++ b₂) ++ b₃ : BitVec (8 + 8 + 8 + 8)).toNat = _
  rw [toNat_append_byte, toNat_append_byte, toNat_append_byte]

theorem byte_toNat (w : Word) (j : Nat) : (w.extractLsb' (8 * j) 8).toNat = w.toNat / 256 ^ j % 256 := by
  rw [BitVec.extractLsb'_toNat, Nat.shiftRight_eq_div_pow, pow_mul]
  rfl

theorem fromBeBytes_byte (b₀ b₁ b₂ b₃ : Byte) (j : Fin 4) :
    (fromBeBytes b₀ b₁ b₂ b₃).extractLsb' (8 * j) 8 = #v[b₃, b₂, b₁, b₀][j] := by
  have h₀ := b₀.isLt
  have h₁ := b₁.isLt
  have h₂ := b₂.isLt
  have h₃ := b₃.isLt
  apply BitVec.eq_of_toNat_eq
  rw [byte_toNat, fromBeBytes_toNat]
  match j with
  | 0 | 1 | 2 =>
      simp
      omega
  | 3 =>
      show (((b₀.toNat * 256 + b₁.toNat) * 256 + b₂.toNat) * 256 + b₃.toNat) / 256 ^ 3 % 256 = b₀.toNat
      omega

/-- `swap_bytes` turns the bytes of a word around. -/
theorem swapBytes_byte (w : Word) (j : Fin 4) :
    (swapBytes w).extractLsb' (8 * j) 8 = w.extractLsb' (8 * (3 - j)) 8 := by
  rw [swapBytes, fromBeBytes_byte]
  match j with
  | 0 | 1 | 2 | 3 => rfl

/-- In memory, the bytes of `to_be()` are those of the word, the most significant first. -/
theorem byteAt_toBe (e : Endian) (w : Word) (j : Fin 4) : e.byteAt (e.toBe w) j = Fips.byteOf w j := by
  have hbyte : e.byteAt (e.toBe w) j = w.extractLsb' (8 * (3 - j)) 8 := by
    cases e with
    | big => rfl
    | little => exact swapBytes_byte w j
  rw [hbyte, Fips.byteOf]
  apply BitVec.eq_of_toNat_eq
  rw [byte_toNat, BitVec.toNat_ofNat]

theorem output_toState (e : Endian) (hash : Fips.Vars) :
    (output e hash.toState).toList = hash.words.flatMap Fips.bytesOf := by
  have hbyte : output e hash.toState = .ofFn fun i => Fips.byteOf hash.toState[i.val / 4] (i % 4) := by
    unfold output
    ext1 i hi
    rw [Vector.getElem_ofFn, Vector.getElem_ofFn, Vector.getElem_map, byteAt_toBe]
  -- whatever the bytes are, they are those of one word after the other
  have hlist : ∀ f : Word → Nat → Byte,
      (Vector.ofFn fun i : Fin 32 => f hash.toState[i.val / 4] (i % 4)).toList =
        hash.words.flatMap fun w => [f w 0, f w 1, f w 2, f w 3] := by
    intro f
    rw [Vector.toList_ofFn]
    rfl
  rw [hbyte]
  exact hlist Fips.byteOf

theorem foldl_dealOne (blocks : List Block) (hash : Fips.Vars) :
    blocks.foldl dealOne hash.toState = (blocks.foldl Fips.compress hash).toState := by
  induction blocks generalizing hash with
  | nil => rfl
  | cons block blocks ih => rw [List.foldl_cons, List.foldl_cons, dealOne_eq_compress, ih]

theorem digest_ok (e : Endian) {data : List Byte} (hpos : 1 ≤ data.length)
    (hdata : data.length < 2 ^ 61) :
    digest e data =
      .ok (output e ((Fips.blocks (Fips.pad data)).foldl dealOne initialState)) := by
  rw [digest, absorb_ok dealOne hpos hdata]
  rfl

/-- **`digest` is SHA-256** on every message of 1 to `2 ^ 61 - 1` bytes. -/
theorem digest_eq_sha256 (e : Endian) (data : List Byte) (hpos : 1 ≤ data.length)
    (hdata : data.length < 2 ^ 61) : (digest e data).map Vector.toList = .ok (Fips.sha256 data) := by
  rw [digest_ok e hpos hdata, initialState_eq, foldl_dealOne, Except.map, output_toState, Fips.sha256]

theorem digest_eq_sha256_abc :
    (digest .little [0x61, 0x62, 0x63]).map Vector.toList = .ok (Fips.sha256 [0x61, 0x62, 0x63]) :=
  digest_eq_sha256 .little [0x61, 0x62, 0x63] (by decide) (by decide)

example : (digest .little [0x61, 0x62, 0x63]).map Vector.toList = .ok [
    0xba, 0x78, 0x16, 0xbf, 0x8f, 0x01, 0xcf, 0xea, 0x41, 0x41, 0x40, 0xde, 0x5d, 0xae, 0x22, 0x23,
    0xb0, 0x03, 0x61, 0xa3, 0x96, 0x17, 0x7a, 0x9c, 0xb4, 0x10, 0xff, 0x61, 0xf2, 0x00, 0x15, 0xad] := by
  decide +kernel

/-! ### Totality -/

theorem blockCounts_zero : blockCounts 0 = .error .overflow := rfl

/-- On the empty message the subtraction of `deal_block` underflows. -/
theorem digest_nil (e : Endian) : digest e [] = .error .overflow := by
  rw [digest, absorb, dealBlock, List.length_nil, blockCounts_zero]
  rfl

/-- **`digest` returns exactly on the nonempty messages.** No check of the debug build fails on any of
1 to `2 ^ 61 - 1` bytes, and on the empty message one does. -/
theorem digest_total_iff (e : Endian) (data : List Byte) (hdata : data.length < 2 ^ 61) :
    (∃ out, digest e data = .ok out) ↔ data ≠ [] := by
  constructor
  · rintro ⟨out, hout⟩ rfl
    rw [digest_nil] at hout
    cases hout
  · intro hne
    exact ⟨_, digest_ok e (List.length_pos_iff.mpr hne) hdata⟩

theorem digest_total_iff_abc :
    (∃ out, digest .little [0x61, 0x62, 0x63] = .ok out) ↔ ([0x61, 0x62, 0x63] : List Byte) ≠ [] :=
  digest_total_iff .little [0x61, 0x62, 0x63] (by decide)

/-- The empty message is one that SHA-256 is defined for. -/
theorem digest_not_total : ([] : List Byte).length < 2 ^ 61 ∧
    digest .little [] = .error .overflow ∧ ¬∃ out, digest .little [] = .ok out := by
  have hnil : digest .little [] = .error .overflow := digest_nil .little
  refine ⟨by decide, hnil, ?_⟩
  rintro ⟨out, hout⟩
  cases hnil.symm.trans hout

end SmallTrial.Hash

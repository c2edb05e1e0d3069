import SmallTrial.ListingFile
import SmallTrial.NumberRounding
import SmallTrial.TextDecimal

/-! `trans` of `myls`, which prints a size for `-h`: as a `double` that is divided by 1024 until it is small,
with one decimal place and the letter of the unit. What it prints, read back. -/

namespace SmallTrial.Listing

open Text Rounding

/-! ### `trans` -/

/-- `st_size` as a `double`, which has 53 bits. -/
def toDouble (size : Int64) : ℚ := fl 53 size.toInt

/-- `unit` -/
def unit : Bytes := ascii "BKMGTP"

/-- The loop; `left` is `5 - u`. Dividing a `double` by 1024 is exact. -/
def transLoop : Nat → Nat → ℚ → Nat × ℚ
  | 0, u, num => (u, num)
  | left + 1, u, num => if 1024 ≤ num then transLoop left (u + 1) (num / 1024) else (u, num)

/-- `(int)num` -/
def truncate (num : ℚ) : Int := num.num.tdiv num.den

/-- `%.1f` of a number that is not negative. -/
def fixed (num : ℚ) : Bytes :=
  let tenths := roundEven (10 * num)
  decimal (tenths / 10) ++ 46 :: decimal (tenths % 10)

def trans (size : Int64) : Bytes :=
  let (u, num) := transLoop 5 0 (toDouble size)
  (if u = 0 then decimal (truncate num) else fixed num).leftpad 6 32 ++ [unit.getD u 0]

/-- A number with at most one point, its unit behind it and blanks before it. -/
def readSize (text : Bytes) : Option ℚ := do
  let u ← unit.idxOf? (← text.getLast?)
  let number := text.dropLast.dropWhile (· = 32)
  let whole := number.takeWhile isDigit
  let places := number.drop (whole.length + 1)
  return (ofDigits whole + ofDigits places / 10 ^ places.length) * 1024 ^ u

/-! ### Reading -/

theorem readSize_padded {whole tail : Bytes} {u : Nat} (hne : whole ≠ []) (hdigit : ∀ d ∈ whole, isDigit d)
    (htail : tail.takeWhile isDigit = []) (hu : u < 6) :
    readSize ((whole ++ tail).leftpad 6 32 ++ [unit.getD u 0]) =
      some (((ofDigits whole : ℚ) + ofDigits tail.tail / 10 ^ tail.tail.length) * 1024 ^ u) := by
  have hunit : unit.idxOf? (unit.getD u 0) = some u := by
    have hall : ∀ u < 6, unit.idxOf? (unit.getD u 0) = some u := by decide
    exact hall u hu
  have hblanks : ((whole ++ tail).leftpad 6 32).dropWhile (· = 32) = whole ++ tail := by
    obtain ⟨d, whole, rfl⟩ := List.exists_cons_of_ne_nil hne
    have hd : isDigit d := hdigit d List.mem_cons_self
    have h32 : d ≠ 32 := by
      rintro rfl
      exact absurd hd (by decide)
    rw [List.leftpad, List.dropWhile_append_of_pos fun c hc => by
        rw [List.eq_of_mem_replicate hc]; rfl,
      List.cons_append, List.dropWhile_cons_of_neg (by simpa using h32)]
  have hwhole : (whole ++ tail).takeWhile isDigit = whole := by
    rw [List.takeWhile_append_of_pos hdigit, htail, List.append_nil]
  have hdrop : (whole ++ tail).drop (whole.length + 1) = tail.tail := by
    rw [List.drop_append, List.drop_eq_nil_of_le (Nat.le_succ _), List.nil_append, Nat.add_sub_cancel_left,
      List.drop_one]
  rw [readSize, List.getLast?_concat, Option.bind_eq_bind, Option.bind_some, hunit, Option.bind_eq_bind,
    Option.bind_some, List.dropLast_concat, hblanks]
  dsimp only
  rw [hwhole, hdrop]
  rfl

/-- A whole number. -/
theorem readSize_whole (n : Nat) {u : Nat} (hu : u < 6) :
    readSize ((digits n).leftpad 6 32 ++ [unit.getD u 0]) = some ((n : ℚ) * 1024 ^ u) := by
  have htail : ([] : Bytes).takeWhile isDigit = [] := rfl
  have hread := readSize_padded (digits_ne_nil n) (fun _ => isDigit_of_mem_digits) htail hu
  rw [List.append_nil] at hread
  rw [hread, ofDigits_digits]
  norm_num [ofDigits]

theorem length_digits_le {n k : Nat} (hk : 0 < k) (h : n < 10 ^ k) : (digits n).length ≤ k := by
  rw [digits, List.length_map]
  exact (Nat.length_toDigits_le_iff (by decide) hk).mpr h

/-- Tenths. -/
theorem readSize_tenths (t : Nat) {u : Nat} (hu : u < 6) :
    readSize ((digits (t / 10) ++ 46 :: digits (t % 10)).leftpad 6 32 ++ [unit.getD u 0]) =
      some ((t : ℚ) / 10 * 1024 ^ u) := by
  have hlen : (digits (t % 10)).length = 1 := by
    have hle : (digits (t % 10)).length ≤ 1 := length_digits_le Nat.one_pos (Nat.mod_lt t (by decide))
    have hpos := List.length_pos_of_ne_nil (digits_ne_nil (t % 10))
    omega
  have hsplit : ((t / 10 : ℕ) : ℚ) + (t % 10 : ℕ) / 10 = t / 10 := by
    have hdiv : 10 * ((t / 10 : ℕ) : ℚ) + (t % 10 : ℕ) = t := by exact_mod_cast Nat.div_add_mod t 10
    rw [← hdiv]
    ring
  rw [readSize_padded (digits_ne_nil _) (fun _ => isDigit_of_mem_digits) rfl hu, List.tail_cons, hlen,
    ofDigits_digits, ofDigits_digits, pow_one, hsplit]

/-! ### The loop -/

/-- The loop divides until the number is below 1024 or there is no unit left. -/
theorem transLoop_eq (left u : Nat) (num : ℚ) : ∃ j ≤ left,
    transLoop left u num = (u + j, num / 1024 ^ j) ∧ (j < left → num < 1024 ^ (j + 1)) ∧
      (0 < j → 1024 ^ j ≤ num) := by
  induction left generalizing u num with
  | zero => exact ⟨0, Nat.le_refl _, by rw [transLoop, pow_zero, div_one, Nat.add_zero], nofun, nofun⟩
  | succ left ih =>
      rw [transLoop]
      split
      · rename_i hnum
        obtain ⟨j, hj, heq, hlt, hle⟩ := ih (u + 1) (num / 1024)
        refine ⟨j + 1, Nat.succ_le_succ hj, ?_, fun hmore => ?_, fun _ => ?_⟩
        · rw [heq, Nat.add_assoc, Nat.add_comm 1 j, div_div, ← pow_succ']
        · have hsmall := hlt (Nat.lt_of_succ_lt_succ hmore)
          rw [div_lt_iff₀ (by norm_num)] at hsmall
          rwa [pow_succ]
        · by_cases h0 : j = 0
          · rw [h0, zero_add, pow_one]
            exact hnum
          · have hbig := hle (Nat.pos_of_ne_zero h0)
            rwa [le_div_iff₀ (by norm_num), ← pow_succ] at hbig
      · rename_i hnum
        refine ⟨0, Nat.zero_le _, by rw [pow_zero, div_one, Nat.add_zero], fun _ => ?_, nofun⟩
        rw [zero_add, pow_one]
        exact lt_of_not_ge hnum

/-- The size `n` is shown in the unit `u`. -/
structure InUnit (n u : Nat) : Prop where
  lt : u < 6
  small : u < 5 → fl 53 n < 1024 ^ (u + 1)
  large : 0 < u → (1024 : ℚ) ^ u ≤ fl 53 n

namespace InUnit

variable {n m u w : Nat}

theorem pow_1024 (u : Nat) : 1024 ^ u = 2 ^ (10 * u) := by
  rw [pow_mul]
  norm_num

/-- From 1024 bytes on the size is at least one of its units. -/
theorem le (h : InUnit n u) (hu : 0 < u) : 1024 ^ u ≤ n := by
  by_contra hlt
  have hn : n < 1024 ^ u := Nat.lt_of_not_le hlt
  have hbits : n < 2 ^ 53 := by
    have hpow : 1024 ^ u ≤ 2 ^ 53 := by
      rw [pow_1024]
      exact Nat.pow_le_pow_right (by decide) (by have := h.lt; omega)
    omega
  have hlarge := h.large hu
  rw [fl_natCast hbits] at hlarge
  exact absurd (by exact_mod_cast hlarge) hlt

/-- Below that it is shown in bytes. -/
theorem zero (h : InUnit n 0) : n < 1024 := by
  by_contra hle
  have hcast : ((1024 : ℕ) : ℚ) ≤ n := by exact_mod_cast Nat.le_of_not_lt hle
  have hround := fl_mono (p := 53) (by decide) (Nat.cast_nonneg _) hcast
  rw [fl_natCast (by decide)] at hround
  have hsmall := h.small (by decide)
  rw [zero_add, pow_one] at hsmall
  push_cast at hround
  linarith

end InUnit

/-! ### What is shown -/

/-- The tenths of the unit `1024 ^ u`. -/
def tenths (n u : Nat) : ℤ := roundEven (10 * (fl 53 n / 1024 ^ u))

def shownSize (n u : Nat) : ℚ := (tenths n u : ℚ) / 10 * 1024 ^ u

theorem shownSize_mul (n u : Nat) : 10 * shownSize n u = tenths n u * 1024 ^ u := by
  rw [shownSize]
  ring

/-- A bound on the size, in tenths of the unit. -/
theorem tenths_le {n u : Nat} {t : ℤ} (h : 10 * fl 53 n ≤ t * 1024 ^ u) : tenths n u ≤ t := by
  refine roundEven_le ?_
  rw [← mul_div_assoc, div_le_iff₀ (by positivity)]
  exact h

theorem le_tenths {n u : Nat} {t : ℤ} (h : t * 1024 ^ u ≤ 10 * fl 53 n) : t ≤ tenths n u := by
  refine le_roundEven ?_
  rw [← mul_div_assoc, le_div_iff₀ (by positivity)]
  exact h

theorem tenths_bytes {n : Nat} (h : n < 1024) : tenths n 0 = 10 * n := by
  have hround : fl 53 n = n := fl_natCast (by omega)
  have hcast : roundEven ((10 * n : ℤ) : ℚ) = 10 * n := roundEven_intCast _
  rw [tenths, hround, pow_zero, div_one, ← hcast]
  norm_num

theorem shownSize_bytes {n : Nat} (h : n < 1024) : shownSize n 0 = n := by
  rw [shownSize, tenths_bytes h]
  norm_num

/-- Rounding to a tenth changes less than a twentieth of the unit. -/
theorem abs_shownSize_sub_double_le (n u : Nat) : |shownSize n u - fl 53 n| ≤ 1024 ^ u / 20 := by
  have hpos : (0 : ℚ) < 1024 ^ u := by positivity
  have hfactor : shownSize n u - fl 53 n =
      (tenths n u - 10 * (fl 53 n / 1024 ^ u)) * (1024 ^ u / 10) := by
    rw [shownSize]
    field_simp
  rw [hfactor, abs_mul, abs_of_pos (by positivity : (0 : ℚ) < 1024 ^ u / 10)]
  have hround := mul_le_mul_of_nonneg_right
    (abs_roundEven_sub_le (10 * (fl 53 n / 1024 ^ u))) (by positivity : (0 : ℚ) ≤ 1024 ^ u / 10)
  rw [tenths]
  linarith

/-- What is shown differs from the size by a twentieth at most. -/
theorem abs_shownSize_sub_le {n u : Nat} (h : InUnit n u) : |shownSize n u - n| ≤ n / 20 := by
  have hn : (0 : ℚ) ≤ n := Nat.cast_nonneg n
  by_cases hu : u = 0
  · subst hu
    rw [shownSize_bytes h.zero, sub_self, abs_zero]
    positivity
  · have hle : (1024 : ℚ) ^ u ≤ n := by exact_mod_cast h.le (Nat.pos_of_ne_zero hu)
    have hshown := abs_shownSize_sub_double_le n u
    by_cases hbits : n < 2 ^ 53
    · rw [fl_natCast hbits] at hshown
      linarith
    · have hpow : (1024 : ℚ) ^ u ≤ 1024 ^ 5 :=
        pow_le_pow_right₀ (by norm_num) (Nat.le_of_lt_succ h.lt)
      have hbig : (8 * 1024 ^ 5 : ℚ) ≤ n := by exact_mod_cast Nat.le_of_not_lt hbits
      have hround := abs_fl_sub_le 53 n
      have htri := abs_sub_le (shownSize n u) (fl 53 n) n
      have hnonneg := abs_nonneg (fl 53 n - n)
      have hexact : 40 * |fl 53 n - n| ≤ n := by
        rw [Nat.abs_cast] at hround
        norm_num at hround
        linarith
      linarith

theorem shownSize_mono {n m u w : Nat} (h : n ≤ m) (hn : InUnit n u) (hm : InUnit m w) :
    shownSize n u ≤ shownSize m w := by
  have hround : fl 53 n ≤ fl 53 m := fl_mono (by decide) (Nat.cast_nonneg _) (by exact_mod_cast h)
  have hpow {a b : Nat} (hab : a ≤ b) : (1024 : ℚ) ^ a ≤ 1024 ^ b := pow_le_pow_right₀ (by norm_num) hab
  rcases Nat.lt_trichotomy u w with hlt | rfl | hgt
  · -- the next unit lies between them
    have hw := hm.lt
    have hlow : tenths n u ≤ 10240 := by
      refine tenths_le ?_
      have hsmall := hn.small (by omega)
      rw [pow_succ] at hsmall
      norm_num
      linarith
    have hhigh : 10 ≤ tenths m w := by
      refine le_tenths ?_
      have hlarge := hm.large (by omega)
      norm_num
      linarith
    have hnext := hpow (show u + 1 ≤ w from hlt)
    rw [pow_succ] at hnext
    have h₁ : (tenths n u : ℚ) ≤ 10240 := by exact_mod_cast hlow
    have h₂ : (10 : ℚ) ≤ tenths m w := by exact_mod_cast hhigh
    have h₃ := mul_le_mul_of_nonneg_right h₁ (by positivity : (0 : ℚ) ≤ 1024 ^ u)
    have h₄ := mul_le_mul_of_nonneg_right h₂ (by positivity : (0 : ℚ) ≤ 1024 ^ w)
    have hleft := shownSize_mul n u
    have hright := shownSize_mul m w
    linarith
  · have htenths : tenths n u ≤ tenths m u := by
      refine roundEven_mono ?_
      gcongr
    rw [shownSize, shownSize]
    gcongr
  · have hsmall := hm.small (by have := hn.lt; omega)
    have hlarge := hn.large (by omega)
    have hnext := hpow (show w + 1 ≤ u from hgt)
    linarith

/-! ### The text -/

theorem toDouble_eq {size : Int64} {n : Nat} (h : size.toInt = n) : toDouble size = fl 53 n := by
  rw [toDouble, h, Int.cast_natCast]

theorem tenths_lt {n u : Nat} (h : InUnit n u) (hn : n < 2 ^ 63) : tenths n u ≤ 81920 := by
  refine tenths_le ?_
  by_cases hu : u = 5
  · have hcast : (n : ℚ) ≤ 2 ^ (63 : ℤ) := by exact_mod_cast hn.le
    have hround := fl_mono (p := 53) (by decide) (Nat.cast_nonneg _) hcast
    rw [fl_two_zpow (by decide)] at hround
    rw [hu]
    norm_num at hround ⊢
    linarith
  · have hsmall := h.small (by have := h.lt; omega)
    have hpos : (0 : ℚ) < 1024 ^ u := by positivity
    rw [pow_succ] at hsmall
    norm_num
    linarith

theorem tenths_nonneg (n u : Nat) : 0 ≤ tenths n u := by
  refine le_tenths ?_
  have hround := fl_nonneg (p := 53) (Nat.cast_nonneg n)
  norm_num
  exact hround

/-- What `trans` prints for a size of `n` bytes. -/
theorem trans_eq {size : Int64} {n : Nat} (h : size.toInt = n) : ∃ u, InUnit n u ∧
    trans size = (if u = 0 then digits n
      else digits ((tenths n u).toNat / 10) ++ 46 :: digits ((tenths n u).toNat % 10)).leftpad 6 32 ++
        [unit.getD u 0] := by
  obtain ⟨u, hu, hloop, hsmall, hlarge⟩ := transLoop_eq 5 0 (fl 53 n)
  rw [Nat.zero_add] at hloop
  have hin : InUnit n u := ⟨Nat.lt_succ_of_le hu, hsmall, hlarge⟩
  refine ⟨u, hin, ?_⟩
  rw [trans, toDouble_eq h, hloop]
  dsimp only
  by_cases h0 : u = 0
  · subst h0
    have htruncate : truncate (fl 53 n / 1024 ^ 0) = n := by
      rw [pow_zero, div_one, fl_natCast (Nat.lt_trans hin.zero (by decide)), truncate,
        Rat.num_natCast, Rat.den_natCast, Nat.cast_one, Int.tdiv_one]
    rw [if_pos rfl, if_pos rfl, htruncate, decimal_ofNat]
  · have htenths : ((tenths n u).toNat : ℤ) = tenths n u := Int.toNat_of_nonneg (tenths_nonneg n u)
    rw [if_neg h0, if_neg h0, fixed]
    show (decimal (tenths n u / 10) ++ 46 :: decimal (tenths n u % 10)).leftpad 6 32 ++ _ = _
    rw [← htenths, ← decimal_ofNat, ← decimal_ofNat]
    rfl

theorem length_trans {size : Int64} {n : Nat} (h : size.toInt = n) : (trans size).length = 7 := by
  obtain ⟨u, hin, htext⟩ := trans_eq h
  have hn : n < 2 ^ 63 := by
    have := size.toInt_lt
    omega
  have hle : (tenths n u).toNat ≤ 81920 := by
    have := tenths_lt hin hn
    omega
  rw [htext, List.length_append, List.length_singleton, List.length_leftpad]
  split
  · rename_i h0
    subst h0
    have hdigits := length_digits_le (k := 4) (by decide) (Nat.lt_trans hin.zero (by decide))
    omega
  · have hwhole := length_digits_le (n := (tenths n u).toNat / 10) (k := 4) (by decide) (by omega)
    have hplace := length_digits_le (n := (tenths n u).toNat % 10) (k := 1) (by decide) (by omega)
    rw [List.length_append, List.length_cons]
    omega

theorem readSize_trans {size : Int64} {n : Nat} (h : size.toInt = n) :
    ∃ u, InUnit n u ∧ readSize (trans size) = some (shownSize n u) := by
  obtain ⟨u, hin, htext⟩ := trans_eq h
  refine ⟨u, hin, ?_⟩
  rw [htext]
  split
  · rename_i h0
    subst h0
    rw [readSize_whole n (by decide), pow_zero, mul_one, shownSize_bytes hin.zero]
  · rw [readSize_tenths _ hin.lt, shownSize]
    have htenths : (((tenths n u).toNat : ℕ) : ℚ) = tenths n u := by
      exact_mod_cast Int.toNat_of_nonneg (tenths_nonneg n u)
    rw [htenths]

/-- **Sizes for `-h`.** Every size takes seven characters, which read as a size that differs from it by a
twentieth at most, and not at all below 1024; and a larger size is never shown as a smaller one. -/
theorem trans_shows :
    (∀ size : Int64, 0 ≤ size.toInt → (trans size).length = 7 ∧ ∃ v, readSize (trans size) = some v ∧
      |v - size.toInt| ≤ size.toInt / 20 ∧ (size.toInt < 1024 → v = size.toInt)) ∧
    ∀ size size' : Int64, 0 ≤ size.toInt → size.toInt ≤ size'.toInt →
      ∃ v v', readSize (trans size) = some v ∧ readSize (trans size') = some v' ∧ v ≤ v' := by
  constructor
  · intro size hsize
    obtain ⟨n, hn⟩ := Int.eq_ofNat_of_zero_le hsize
    obtain ⟨u, hin, hread⟩ := readSize_trans hn
    rw [hn]
    refine ⟨length_trans hn, _, hread, abs_shownSize_sub_le hin, fun hlt => ?_⟩
    have hu : u = 0 := by
      by_contra hne
      have hle := hin.le (Nat.pos_of_ne_zero hne)
      have hpow := Nat.pow_le_pow_right (n := 1024) (by decide) (Nat.pos_of_ne_zero hne)
      omega
    subst hu
    exact shownSize_bytes hin.zero
  · intro size size' hsize hle
    obtain ⟨n, hn⟩ := Int.eq_ofNat_of_zero_le hsize
    obtain ⟨m, hm⟩ := Int.eq_ofNat_of_zero_le (Int.le_trans hsize hle)
    obtain ⟨u, hu, hread⟩ := readSize_trans hn
    obtain ⟨w, hw, hread'⟩ := readSize_trans hm
    exact ⟨_, _, hread, hread', shownSize_mono (by omega) hu hw⟩

example : trans 1048575 = ascii "1024.0K" := by decide +kernel

end SmallTrial.Listing

import SmallTrial.TextBuffer

/-! Decimal numbers: `std::stoi` reads what `std::to_string` and `%d` print, for every `int`. -/

namespace Text

/-- The digits of a number. -/
def digits (n : Nat) : Bytes := (Nat.toDigits 10 n).map fun c => c.toNat.toUInt8

theorem decimal_ofNat (n : Nat) : decimal n = digits n := rfl

theorem decimal_negSucc (n : Nat) : decimal (.negSucc n) = 45 :: digits (n + 1) := rfl

theorem toNat_of_isDigit {c : Char} (h : c.isDigit) : 48 ≤ c.toNat ∧ c.toNat ≤ 57 := by
  simp only [Char.isDigit, Bool.and_eq_true, decide_eq_true_eq, ge_iff_le, UInt32.le_iff_toNat_le] at h
  exact h

theorem toNat_toUInt8 {c : Char} (h : c.isDigit) : c.toNat.toUInt8.toNat = c.toNat := by
  have hc := toNat_of_isDigit h
  rw [Nat.toUInt8, UInt8.toNat_ofNat']
  omega

theorem isDigit_of_mem_digits {n : Nat} {d : UInt8} (h : d ∈ digits n) : isDigit d := by
  obtain ⟨c, hc, rfl⟩ := List.mem_map.mp h
  have hdigit := Nat.isDigit_of_mem_toDigits (by decide) (by decide) hc
  have hrange := toNat_of_isDigit hdigit
  simp only [isDigit, Bool.and_eq_true, decide_eq_true_eq, UInt8.le_iff_toNat_le, toNat_toUInt8 hdigit,
    UInt8.reduceToNat]
  exact hrange

theorem digits_ne_nil (n : Nat) : digits n ≠ [] := by
  rw [digits, ne_eq, List.map_eq_nil_iff]
  exact Nat.toDigits_ne_nil

theorem ofDigits_digits (n : Nat) : ofDigits (digits n) = n := by
  have hfold : ∀ (cs : List Char) (v : Nat), (∀ c ∈ cs, c.isDigit) →
      (cs.map fun c => c.toNat.toUInt8).foldl (fun v d => 10 * v + (d.toNat - 48)) v =
        Nat.ofDigitChars 10 cs v := by
    intro cs
    induction cs with
    | nil => intros; rfl
    | cons c cs ih =>
        intro v h
        rw [List.map_cons, List.foldl_cons, ih _ fun d hd => h d (List.mem_cons_of_mem _ hd),
          toNat_toUInt8 (h c List.mem_cons_self), Nat.ofDigitChars_cons]
        rfl
  rw [ofDigits, digits, hfold _ _ fun c hc => Nat.isDigit_of_mem_toDigits (by decide) (by decide) hc]
  exact Nat.ofDigitChars_ten_toDigits

/-- Only digits and a minus sign are printed. -/
theorem not_mem_decimal {c : UInt8} (hdigit : isDigit c = false) (hminus : c ≠ 45) (v : Int) :
    c ∉ decimal v := by
  have hdigits : ∀ n, c ∉ digits n := by
    intro n hmem
    rw [isDigit_of_mem_digits hmem] at hdigit
    cases hdigit
  cases v with
  | ofNat n => exact hdigits n
  | negSucc n =>
      rw [decimal_negSucc, List.mem_cons, not_or]
      exact ⟨hminus, hdigits _⟩

/-! ### What `std::stoi` accepts -/

/-- Space, a sign and digits of an `int`, then anything but a digit. -/
structure IsNumeral (space sign number rest : Bytes) : Prop where
  spaces : ∀ c ∈ space, isSpace c
  signs : sign = [] ∨ sign = [43] ∨ sign = [45]
  ne_nil : number ≠ []
  digit : ∀ c ∈ number, isDigit c
  stop : ∀ c ∈ rest.head?, isDigit c = false
  range : if sign = [45] then ofDigits number ≤ 2 ^ 31 else ofDigits number < 2 ^ 31

theorem takeWhile_isDigit {number rest : Bytes} (hnumber : ∀ c ∈ number, isDigit c)
    (hrest : ∀ c ∈ rest.head?, isDigit c = false) : (number ++ rest).takeWhile isDigit = number := by
  rw [List.takeWhile_append_of_pos hnumber]
  cases rest with
  | nil => rw [List.takeWhile_nil, List.append_nil]
  | cons c rest =>
      have hc : ¬ isDigit c = true := by
        rw [hrest c rfl]
        exact Bool.false_ne_true
      rw [List.takeWhile_cons_of_neg hc, List.append_nil]

theorem signed_append {space sign number rest : Bytes} (h : IsNumeral space sign number rest) :
    signed (sign ++ number ++ rest) = (decide (sign = [45]), number) := by
  have htake := takeWhile_isDigit h.digit h.stop
  rcases h.signs with rfl | rfl | rfl
  · obtain ⟨c, r, rfl⟩ := List.exists_cons_of_ne_nil h.ne_nil
    rw [List.nil_append, List.cons_append, signed_of_digit (h.digit c List.mem_cons_self), ← List.cons_append,
      htake]
    rfl
  · rw [List.singleton_append, List.cons_append, signed, htake]
    rfl
  · rw [List.singleton_append, List.cons_append, signed, htake]
    rfl

theorem dropWhile_isSpace {space sign number rest : Bytes} (h : IsNumeral space sign number rest) :
    (space ++ (sign ++ number ++ rest)).dropWhile isSpace = sign ++ number ++ rest := by
  rw [List.dropWhile_append_of_pos h.spaces]
  obtain ⟨c, r, rfl⟩ := List.exists_cons_of_ne_nil h.ne_nil
  rcases h.signs with rfl | rfl | rfl
  · have hc := isSpace_of_digit (h.digit c List.mem_cons_self)
    rw [List.nil_append, List.cons_append, List.dropWhile_cons_of_neg (by rw [hc]; exact Bool.false_ne_true)]
  · rfl
  · rfl

/-- A text without a sign in front is read as digits. -/
theorem signed_cases (t : Bytes) : ∃ sign rest, t = sign ++ rest ∧ (sign = [] ∨ sign = [43] ∨ sign = [45]) ∧
    signed t = (decide (sign = [45]), rest.takeWhile isDigit) := by
  unfold signed
  split
  · exact ⟨[45], _, rfl, .inr (.inr rfl), rfl⟩
  · exact ⟨[43], _, rfl, .inr (.inl rfl), rfl⟩
  · exact ⟨[], t, rfl, .inl rfl, rfl⟩

/-- Whether a number with a sign is an `int`. -/
theorem stoi_isSome_of_signed {s sign number : Bytes}
    (h : signed (s.dropWhile isSpace) = (decide (sign = [45]), number)) :
    (stoi s).isSome ↔ number ≠ [] ∧
      if sign = [45] then ofDigits number ≤ 2 ^ 31 else ofDigits number < 2 ^ 31 := by
  rw [stoi, h]
  dsimp only
  by_cases hnil : number = []
  · simp [hnil]
  · rw [if_neg hnil, and_iff_right hnil]
    by_cases hneg : sign = [45]
    · rw [decide_eq_true hneg, if_pos rfl, if_pos hneg]
      split
      · exact iff_of_true rfl (by omega)
      · exact iff_of_false Bool.false_ne_true (by omega)
    · rw [decide_eq_false hneg, if_neg Bool.false_ne_true, if_neg hneg]
      split
      · exact iff_of_true rfl (by omega)
      · exact iff_of_false Bool.false_ne_true (by omega)

/-- **`std::stoi` throws nothing** exactly if the text starts with a number of type `int`. -/
theorem stoi_isSome_iff (s : Bytes) : (stoi s).isSome ↔
    ∃ space sign number rest, s = space ++ (sign ++ number ++ rest) ∧ IsNumeral space sign number rest := by
  constructor
  · intro h
    obtain ⟨sign, t, ht, hsign, hsigned⟩ := signed_cases (s.dropWhile isSpace)
    obtain ⟨hne, hrange⟩ := (stoi_isSome_of_signed hsigned).mp h
    refine ⟨s.takeWhile isSpace, sign, t.takeWhile isDigit, t.dropWhile isDigit, ?_,
      fun c hc => List.mem_takeWhile_imp hc, hsign, hne, fun c hc => List.mem_takeWhile_imp hc,
      fun c hc => ?_, hrange⟩
    · rw [List.append_assoc, List.takeWhile_append_dropWhile, ← ht, List.takeWhile_append_dropWhile]
    · have hhead := List.head?_dropWhile_not isDigit t
      rw [Option.mem_def.mp hc] at hhead
      exact hhead
  · rintro ⟨space, sign, number, rest, rfl, h⟩
    refine (stoi_isSome_of_signed ?_).mpr ⟨h.ne_nil, h.range⟩
    rw [dropWhile_isSpace h, signed_append h]

end Text

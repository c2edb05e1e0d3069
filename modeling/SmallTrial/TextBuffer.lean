import Mathlib.Algebra.Order.Ring.Int
import Mathlib.Data.List.TakeWhile

/-! Text as the C and C++ libraries handle it: buffers of a fixed size, null-terminated strings in them,
and the searches and conversions of `std::string`. -/

namespace Text

abbrev Bytes := List UInt8

/-- The bytes of an ASCII literal. -/
def ascii (s : String) : Bytes := s.toList.map fun c => c.toNat.toUInt8

/-! ### Buffers -/

/-- `n` bytes of memory. -/
structure Buffer (n : Nat) where
  bytes : Bytes
  length_eq : bytes.length = n
  deriving DecidableEq

namespace Buffer

variable {n : Nat}

def zero (n : Nat) : Buffer n := ⟨List.replicate n 0, List.length_replicate⟩

/-- Stores `text` at position `i`; undefined if it does not fit. -/
def write (b : Buffer n) (i : Nat) (text : Bytes) : Option (Buffer n) :=
  if h : i + text.length ≤ n then
    some ⟨b.bytes.take i ++ text ++ b.bytes.drop (i + text.length), by
      have hlen := b.length_eq
      simp only [List.length_append, List.length_take, List.length_drop]
      omega⟩
  else none

/-- `strlen`, undefined if there is no terminator. -/
def strlen (b : Buffer n) : Option Nat := b.bytes.idxOf? 0

/-- The null-terminated string at the start of the buffer. -/
def string (b : Buffer n) : Option Bytes := b.strlen.map b.bytes.take

/-- `strcpy`, which also stores the terminator. -/
def strcpy (b : Buffer n) (text : Bytes) : Option (Buffer n) := b.write 0 (text ++ [0])

theorem write_bytes {b b' : Buffer n} {i : Nat} {text : Bytes} (h : b.write i text = some b') :
    b'.bytes = b.bytes.take i ++ text ++ b.bytes.drop (i + text.length) := by
  rw [write] at h
  split at h <;> cases h
  rfl

end Buffer

/-! ### Strings -/

/-- `s.substr(0, s.find(c))` -/
def before (c : UInt8) (s : Bytes) : Bytes :=
  match s.idxOf? c with
  | some i => s.take i
  -- `find` returns `npos`
  | none => s

/-- `s.substr(s.find(c) + 1)` -/
def after (c : UInt8) (s : Bytes) : Bytes :=
  match s.idxOf? c with
  | some i => s.drop (i + 1)
  -- `npos + 1` is 0
  | none => s

def isSpace (c : UInt8) : Bool := c == 32 || (9 ≤ c && c ≤ 13)

def isDigit (c : UInt8) : Bool := 48 ≤ c && c ≤ 57

def ofDigits (digits : Bytes) : Nat := digits.foldl (fun v c => 10 * v + (c.toNat - 48)) 0

/-- The number at the start of a text without leading space. -/
def signed : Bytes → Bool × Bytes
  | 45 :: s => (true, s.takeWhile isDigit)
  | 43 :: s => (false, s.takeWhile isDigit)
  | s => (false, s.takeWhile isDigit)

/-- `std::stoi`: skips space and takes as many digits as there are; throws `invalid_argument` if there is
none and `out_of_range` if the number is no `int`. -/
def stoi (s : Bytes) : Option Int :=
  let (negative, digits) := signed (s.dropWhile isSpace)
  let value : Int := if negative then -ofDigits digits else ofDigits digits
  if digits = [] then none
  else if -2 ^ 31 ≤ value ∧ value < 2 ^ 31 then some value
  else none

/-- `std::to_string` -/
def decimal : Int → Bytes
  | .ofNat n => (Nat.toDigits 10 n).map fun c => c.toNat.toUInt8
  | .negSucc n => 45 :: (Nat.toDigits 10 (n + 1)).map fun c => c.toNat.toUInt8

/-! ### Results -/

theorem idxOf?_append_cons {c : UInt8} {l : Bytes} (h : c ∉ l) (r : Bytes) :
    (l ++ c :: r).idxOf? c = some l.length := by
  induction l with
  | nil => simp [List.idxOf?_cons]
  | cons a l ih =>
      rw [List.mem_cons, not_or] at h
      have hne : (a == c) = false := beq_false_of_ne (Ne.symm h.1)
      rw [List.cons_append, List.idxOf?_cons, hne, ih h.2]
      rfl

theorem before_append_cons {c : UInt8} {l : Bytes} (h : c ∉ l) (r : Bytes) :
    before c (l ++ c :: r) = l := by
  rw [before, idxOf?_append_cons h]
  exact List.take_left

theorem after_append_cons {c : UInt8} {l : Bytes} (h : c ∉ l) (r : Bytes) :
    after c (l ++ c :: r) = r := by
  rw [after, idxOf?_append_cons h]
  simp [List.drop_append]

theorem subset_after (c : UInt8) (s : Bytes) : after c s ⊆ s := by
  rw [after]
  split
  · exact List.drop_subset _ _
  · exact List.Subset.refl s

theorem length_after_le (c : UInt8) (s : Bytes) : (after c s).length ≤ s.length := by
  rw [after]
  split
  · rw [List.length_drop]
    exact Nat.sub_le _ _
  · exact Nat.le_refl _

theorem signed_of_digit {c : UInt8} (hc : isDigit c) (s : Bytes) :
    signed (c :: s) = (false, (c :: s).takeWhile isDigit) := by
  rw [signed]
  · rintro _ ⟨⟩
    exact absurd hc (by decide)
  · rintro _ ⟨⟩
    exact absurd hc (by decide)

theorem isSpace_of_digit {c : UInt8} (hc : isDigit c) : isSpace c = false := by
  simp only [isDigit, Bool.and_eq_true, decide_eq_true_eq, UInt8.le_iff_toNat_le] at hc
  simp only [isSpace, Bool.or_eq_false_iff, Bool.and_eq_false_iff, decide_eq_false_iff_not,
    UInt8.le_iff_toNat_le, beq_eq_false_iff_ne, ne_eq, ← UInt8.toNat_inj]
  simp only [UInt8.reduceToNat] at hc ⊢
  omega

/-- `std::stoi` reads a text of digits as the number they write. -/
theorem stoi_of_digits {s : Bytes} (hs : s ≠ []) (hdigit : ∀ c ∈ s, isDigit c)
    (hlt : ofDigits s < 2 ^ 31) : stoi s = some (ofDigits s : Int) := by
  obtain ⟨c, r, rfl⟩ := List.exists_cons_of_ne_nil hs
  have hc := hdigit c List.mem_cons_self
  have htake : (c :: r).takeWhile isDigit = c :: r := List.takeWhile_eq_self_iff.mpr hdigit
  rw [stoi, List.dropWhile_cons_of_neg (by rw [isSpace_of_digit hc]; exact Bool.false_ne_true),
    signed_of_digit hc, htake]
  dsimp only
  rw [if_neg Bool.false_ne_true, if_neg hs, if_pos ⟨by omega, by exact_mod_cast hlt⟩]

theorem length_decimal_le {v : Int} {k : Nat} (hk : 0 < k) (hv : v.natAbs < 10 ^ k) :
    (decimal v).length ≤ k + 1 := by
  cases v with
  | ofNat n =>
      rw [decimal, List.length_map]
      exact Nat.le_succ_of_le ((Nat.length_toDigits_le_iff (by decide) hk).mpr hv)
  | negSucc n =>
      rw [decimal, List.length_cons, List.length_map]
      exact Nat.succ_le_succ ((Nat.length_toDigits_le_iff (by decide) hk).mpr hv)

namespace Buffer

variable {n : Nat}

/-- A string in a buffer has no terminator of its own and leaves room for one. -/
theorem of_string_eq {b : Buffer n} {t : Bytes} (h : b.string = some t) : 0 ∉ t ∧ t.length < n := by
  obtain ⟨i, hi, rfl⟩ := Option.map_eq_some_iff.mp h
  obtain ⟨hlt, -, hne⟩ := List.idxOf?_eq_some_iff.mp hi
  refine ⟨fun hmem => ?_, ?_⟩
  · obtain ⟨j, hj, heq⟩ := List.getElem_of_mem hmem
    rw [List.length_take] at hj
    rw [List.getElem_take] at heq
    exact hne j (by omega) heq
  · have hlen := b.length_eq
    rw [List.length_take]
    omega

theorem string_strcpy {b b' : Buffer n} {t : Bytes} (h : b.strcpy t = some b') (ht : 0 ∉ t) :
    b'.string = some t := by
  have hbytes := write_bytes h
  rw [List.take_zero, List.nil_append, List.append_assoc, List.singleton_append] at hbytes
  rw [string, strlen, hbytes, idxOf?_append_cons ht, Option.map_some, List.take_left]

theorem strcpy_isSome {t : Bytes} (b : Buffer n) (ht : t.length < n) : ∃ b', b.strcpy t = some b' := by
  rw [strcpy, write, dif_pos (by rw [List.length_append, List.length_singleton]; omega)]
  exact ⟨_, rfl⟩

end Buffer

end Text

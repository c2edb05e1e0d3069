import SmallTrial.TextBuffer

/-! Hexadecimal text: `{:02x}` prints each byte as two digits, and a reader gets the bytes back. -/

namespace Text

/-- One digit, `a` to `f` in lower case. -/
def hexDigit (n : Nat) : UInt8 := if n < 10 then (48 + n).toUInt8 else (87 + n).toUInt8

/-- `{:02x}` for each byte. -/
def hex (bytes : List (BitVec 8)) : Bytes :=
  bytes.flatMap fun b => [hexDigit (b.toNat / 16), hexDigit (b.toNat % 16)]

def hexValue (d : UInt8) : Option Nat :=
  if 48 ≤ d ∧ d ≤ 57 then some (d.toNat - 48)
  else if 97 ≤ d ∧ d ≤ 102 then some (d.toNat - 87)
  else none

/-- Reads pairs of digits. -/
def ofHex : Bytes → Option (List (BitVec 8))
  | [] => some []
  | [_] => none
  | d :: d' :: text => do
      let high ← hexValue d
      let low ← hexValue d'
      return BitVec.ofNat 8 (16 * high + low) :: (← ofHex text)

theorem hexValue_hexDigit {n : Nat} (h : n < 16) : hexValue (hexDigit n) = some n := by
  have hall : ∀ n < 16, hexValue (hexDigit n) = some n := by decide
  exact hall n h

theorem length_hex (bytes : List (BitVec 8)) : (hex bytes).length = 2 * bytes.length := by
  induction bytes with
  | nil => rfl
  | cons b bytes ih =>
      rw [hex, List.flatMap_cons, List.length_append, ← hex, ih, List.length_cons, List.length_cons,
        List.length_cons, List.length_nil]
      omega

/-- What is printed in hexadecimal reads back. -/
theorem ofHex_hex (bytes : List (BitVec 8)) : ofHex (hex bytes) = some bytes := by
  induction bytes with
  | nil => rfl
  | cons b bytes ih =>
      have hlt := b.isLt
      have hsplit : 16 * (b.toNat / 16) + b.toNat % 16 = b.toNat := Nat.div_add_mod _ _
      rw [hex, List.flatMap_cons, ← hex, List.cons_append, List.singleton_append, ofHex,
        hexValue_hexDigit (by omega), hexValue_hexDigit (by omega), ih, Option.bind_eq_bind, Option.bind_some,
        Option.bind_eq_bind, Option.bind_some, hsplit, BitVec.ofNat_toNat, BitVec.setWidth_eq]
      rfl

end Text

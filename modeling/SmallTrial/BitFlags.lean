import Mathlib.Data.List.Basic
import Mathlib.Data.Bool.AllAny

/-! Flags in the bits of an integer, as C keeps them: `x |= m`, `x &= ~m` and `x & m`, where the masks may
be of a wider type than `x`. When no mask that is set meets one that is cleared, a sequence of such updates
depends only on which of them occur. -/

namespace BitFlags

variable {w v : Nat}

/-- `x |= m` -/
def set (x : BitVec w) (m : BitVec v) : BitVec w := (x.signExtend v ||| m).setWidth w

/-- `x &= ~m` -/
def clear (x : BitVec w) (m : BitVec v) : BitVec w := (x.signExtend v &&& ~~~m).setWidth w

/-- `x & m`, as a condition -/
def test (x : BitVec w) (m : BitVec v) : Bool := x.signExtend v &&& m != 0

/-! ### Single bits -/

variable {x : BitVec w} {m : BitVec v} {i : Nat}

theorem getLsbD_signExtend_of_lt (hwv : w ≤ v) (hi : i < w) :
    (x.signExtend v).getLsbD i = x.getLsbD i := by
  have hiv : i < v := by omega
  simp only [BitVec.getLsbD_signExtend, decide_eq_true hiv, Bool.true_and, if_pos hi]

theorem getLsbD_set (hwv : w ≤ v) (hi : i < w) : (set x m).getLsbD i = (x.getLsbD i || m.getLsbD i) := by
  rw [set, BitVec.getLsbD_setWidth, BitVec.getLsbD_or, getLsbD_signExtend_of_lt hwv hi, decide_eq_true hi,
    Bool.true_and]

theorem getLsbD_clear (hwv : w ≤ v) (hi : i < w) :
    (clear x m).getLsbD i = (x.getLsbD i && !m.getLsbD i) := by
  have hiv : i < v := by omega
  rw [clear, BitVec.getLsbD_setWidth, BitVec.getLsbD_and, getLsbD_signExtend_of_lt hwv hi,
    BitVec.getLsbD_not, decide_eq_true hi, decide_eq_true hiv, Bool.true_and, Bool.true_and]

/-- A mask of one bit tests that bit. -/
theorem test_twoPow (hwv : w ≤ v) (hi : i < w) : test x (BitVec.twoPow v i) = x.getLsbD i := by
  have hiv : i < v := by omega
  have hne : BitVec.twoPow v i ≠ 0#v := by
    intro hzero
    have hbit := congrArg (fun y => y.getLsbD i) hzero
    simp [hiv] at hbit
  rw [test, BitVec.and_twoPow, getLsbD_signExtend_of_lt hwv hi]
  cases x.getLsbD i with
  | false => simp
  | true => simpa using hne

/-! ### Sequences of updates -/

/-- `x |= on` and then `x &= ~off` -/
def update (x : BitVec w) (on off : BitVec v) : BitVec w := clear (set x on) off

theorem set_zero (hwv : w ≤ v) : set x 0#v = x := by
  refine BitVec.eq_of_getLsbD_eq fun i hi => ?_
  rw [getLsbD_set hwv hi, BitVec.getLsbD_zero, Bool.or_false]

theorem clear_zero (hwv : w ≤ v) : clear x 0#v = x := by
  refine BitVec.eq_of_getLsbD_eq fun i hi => ?_
  rw [getLsbD_clear hwv hi, BitVec.getLsbD_zero, Bool.not_false, Bool.and_true]

theorem getLsbD_update {on off : BitVec v} (hwv : w ≤ v) (hi : i < w) :
    (update x on off).getLsbD i = ((x.getLsbD i || on.getLsbD i) && !off.getLsbD i) := by
  rw [update, getLsbD_clear hwv hi, getLsbD_set hwv hi]

variable {α : Type*} {on off : α → BitVec v}

/-- No update sets a bit that one of them clears. -/
def Separate (on off : α → BitVec v) : Prop :=
  ∀ a b i, (on a).getLsbD i = true → (off b).getLsbD i = false

/-- The bits of `m` are only set, and the others only cleared. -/
theorem separate_of_mask (hon : ∀ a, on a &&& m = on a) (hoff : ∀ a, off a &&& m = 0#v) :
    Separate on off := by
  intro a b i hbit
  have hm : m.getLsbD i = true := by
    rw [← hon a, BitVec.getLsbD_and, Bool.and_eq_true] at hbit
    exact hbit.2
  have hclear := congrArg (fun y => y.getLsbD i) (hoff b)
  simpa [hm] using hclear

/-- **A bit after a sequence of updates**: it is on if it was on or was set, unless it was cleared. -/
theorem getLsbD_foldl (hwv : w ≤ v) (hsep : Separate on off) (l : List α) (x : BitVec w) (hi : i < w) :
    (l.foldl (fun x a => update x (on a) (off a)) x).getLsbD i =
      ((x.getLsbD i || l.any fun a => (on a).getLsbD i) && !l.any fun a => (off a).getLsbD i) := by
  induction l generalizing x with
  | nil => simp
  | cons a l ih =>
      rw [List.foldl_cons, ih, getLsbD_update hwv hi, List.any_cons, List.any_cons]
      cases hoff : (off a).getLsbD i with
      | false => simp [Bool.or_assoc]
      | true =>
          -- the bit stays cleared: nothing sets it
          have hon : (l.any fun b => (on b).getLsbD i) = false := by
            refine List.any_eq_false.mpr fun b _ hb => ?_
            rw [hsep b a i hb] at hoff
            cases hoff
          simp [hon]

/-- **Order, grouping and repetition do not matter.** -/
theorem foldl_congr (hwv : w ≤ v) (hsep : Separate on off) {l l' : List α} (h : ∀ a, a ∈ l ↔ a ∈ l')
    (x : BitVec w) :
    l.foldl (fun x a => update x (on a) (off a)) x = l'.foldl (fun x a => update x (on a) (off a)) x := by
  have hany : ∀ p : α → Bool, l.any p = l'.any p := by
    intro p
    rw [Bool.eq_iff_iff, List.any_eq_true, List.any_eq_true]
    exact exists_congr fun a => and_congr_left' (h a)
  refine BitVec.eq_of_getLsbD_eq fun i hi => ?_
  rw [getLsbD_foldl hwv hsep l x hi, getLsbD_foldl hwv hsep l' x hi, hany, hany]

end BitFlags

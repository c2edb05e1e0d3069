import Mathlib.Data.List.Pairwise
import SmallTrial.InsertionSort
import SmallTrial.TextBuffer

/-! How `myls` sorts: the comparison `cmp` and the insertion sort of `order`, which shifts names inside the
array. For a comparison that comes from an order it is a stable sort; the keys of files are compared by the
low 32 bits of a difference of 64 bits, and it sorts exactly if these have the right signs. -/

namespace SmallTrial.Listing

open Text

/-! ### Comparison and sorting -/

/-- `struct stat` -/
structure Stat where
  mode : UInt32
  ino : UInt64
  nlink : UInt64
  uid : UInt32
  gid : UInt32
  size : Int64
  blocks : Int64
  atime : Int64
  mtime : Int64
  ctime : Int64

/-- The values 1, 2, 3 and 4 of `op`. -/
inductive Field where
  | ctime
  | atime
  | mtime
  | size
  deriving DecidableEq

/-- The parameter `op`; 0 is the name. -/
inductive Op where
  | name
  | field (f : Field)
  deriving DecidableEq

def Stat.get (st : Stat) : Field → Int64
  | .ctime => st.ctime
  | .atime => st.atime
  | .mtime => st.mtime
  | .size => st.size

/-- `strcmp`: the first difference, of bytes without sign. -/
def strcmp : Bytes → Bytes → Int
  | [], [] => 0
  | [], b :: _ => -b.toNat
  | a :: _, [] => a.toNat
  | a :: as, b :: bs =>
      if a = b then if a = 0 then 0 else strcmp as bs
      else a.toNat - b.toNat

/-- `a - b`, returned as an `int`. -/
def difference (a b : Int64) : Int := (a - b).toInt32.toInt

/-- `cmp(file1, file2, op)`, where `stat` is what `lstat` stores. -/
def cmp (stat : Bytes → Stat) (op : Op) (file1 file2 : Bytes) : Int :=
  match op with
  | .name => strcmp file1 file2
  | .field f => difference ((stat file2).get f) ((stat file1).get f)

/-- The inner loop at index `j`: names move one place to the right while `shift` says so, then `tmp` is
stored. -/
def shiftLoop (shift : Bytes → Bytes → Bool) (tmp : Bytes) : List Bytes → Nat → List Bytes
  | file, 0 => file.set 0 tmp
  | file, j + 1 =>
      match file[j]? with
      | some prev =>
          if shift prev tmp then shiftLoop shift tmp (file.set (j + 1) prev) j
          else file.set (j + 1) tmp
      | none => file

/-- The body of the outer loop. -/
def shiftFrom (shift : Bytes → Bytes → Bool) (file : List Bytes) (i : Nat) : List Bytes :=
  match file[i]? with
  | some tmp => shiftLoop shift tmp file i
  | none => file

/-- `for(i=1;i<filenum;i++)` -/
def outerLoop (shift : Bytes → Bytes → Bool) (file : List Bytes) : List Bytes :=
  (List.range' 1 (file.length - 1)).foldl (shiftFrom shift) file

/-- `order` with a comparison; `r` is `OP_r`. -/
def orderBy (r : Bool) (cmp : Bytes → Bytes → Int) (file : List Bytes) : List Bytes :=
  if r then outerLoop (fun prev tmp => decide (cmp prev tmp < 0)) file
  else outerLoop (fun prev tmp => decide (cmp prev tmp > 0)) file

/-- `order(file, filenum, op)` -/
def order (r : Bool) (stat : Bytes → Stat) (op : Op) (file : List Bytes) : List Bytes :=
  orderBy r (cmp stat op) file

/-! ### The loops insert -/

variable {shift : Bytes → Bytes → Bool}

/-- The inner loop inserts into the names before the hole. -/
theorem shiftLoop_eq (shift : Bytes → Bytes → Bool) (tmp : Bytes) (before : List Bytes) (hole : Bytes)
    (rest : List Bytes) :
    shiftLoop shift tmp (before ++ hole :: rest) before.length =
      InsertionSort.insert shift tmp before ++ rest := by
  induction before using List.reverseRecOn generalizing hole rest with
  | nil => rfl
  | append_singleton before prev ih =>
      have hget : (before ++ [prev] ++ hole :: rest)[before.length]? = some prev := by simp
      have hset (name : Bytes) : (before ++ [prev] ++ hole :: rest).set (before.length + 1) name =
          before ++ prev :: name :: rest := by simp
      rw [List.length_append, List.length_singleton, shiftLoop, hget]
      dsimp only
      rw [hset, hset]
      by_cases hshift : shift prev tmp = true
      · rw [if_pos hshift, ih prev (prev :: rest), InsertionSort.insert_concat_of_shift hshift,
          List.append_assoc, List.singleton_append]
      · rw [if_neg hshift, InsertionSort.insert_concat_of_stop hshift, List.append_assoc]
        rfl

/-- After `k` iterations the first `k + 1` names are sorted and the others are where they were. -/
theorem foldl_shiftFrom (file : List Bytes) (k : Nat) (hk : k < file.length) :
    (List.range' 1 k).foldl (shiftFrom shift) file =
      InsertionSort.sort shift (file.take (k + 1)) ++ file.drop (k + 1) := by
  induction k with
  | zero =>
      obtain ⟨name, rest, rfl⟩ := List.exists_cons_of_length_pos hk
      rfl
  | succ k ih =>
      have hlen : (InsertionSort.sort shift (file.take (k + 1))).length = k + 1 := by
        rw [(InsertionSort.sort_perm _).length_eq, List.length_take]
        omega
      rw [List.range'_concat, List.foldl_append, ih (by omega), List.foldl_cons, List.foldl_nil,
        Nat.one_mul, Nat.add_comm 1 k, List.drop_eq_getElem_cons hk, shiftFrom,
        List.getElem?_append_right (by omega), hlen, Nat.sub_self, List.getElem?_cons_zero]
      have hloop := shiftLoop_eq shift file[k + 1]
        (InsertionSort.sort shift (file.take (k + 1))) file[k + 1] (file.drop (k + 2))
      rw [hlen] at hloop
      dsimp only
      rw [hloop, ← InsertionSort.sort_concat, List.take_append_getElem hk]

/-- The loops do what insertion sort does. -/
theorem outerLoop_eq (file : List Bytes) : outerLoop shift file = InsertionSort.sort shift file := by
  rcases Nat.eq_zero_or_pos file.length with hlen | hlen
  · rw [List.length_eq_zero_iff.mp hlen]
    rfl
  · rw [outerLoop, foldl_shiftFrom file _ (by omega), Nat.sub_add_cancel hlen, List.take_length,
      List.drop_length, List.append_nil]

/-- The test of the inner loop for a result of `cmp`. -/
def shifts (r : Bool) (c : Int) : Bool := if r then decide (c < 0) else decide (c > 0)

theorem orderBy_eq (r : Bool) (cmp : Bytes → Bytes → Int) (file : List Bytes) :
    orderBy r cmp file = InsertionSort.sort (fun prev tmp => shifts r (cmp prev tmp)) file := by
  cases r with
  | false => exact outerLoop_eq file
  | true => exact outerLoop_eq file

theorem shifts_false_iff (c : Int) : shifts false c = true ↔ 0 < c := decide_eq_true_iff

theorem shifts_true_iff (c : Int) : shifts true c = true ↔ c < 0 := decide_eq_true_iff

theorem shifts_zero (r : Bool) : shifts r 0 = false := by
  cases r with
  | false => rfl
  | true => rfl

theorem orderBy_perm (r : Bool) (cmp : Bytes → Bytes → Int) (file : List Bytes) :
    (orderBy r cmp file).Perm file := by
  rw [orderBy_eq]
  exact InsertionSort.sort_perm file

/-! ### Comparisons that come from an order -/

/-- The sign of `cmp` is that of the total preorder `le`. -/
structure Comparator (cmp : Bytes → Bytes → Int) (le : Bytes → Bytes → Prop) : Prop where
  total : ∀ a b, le a b ∨ le b a
  trans : ∀ a b c, le a b → le b c → le a c
  neg : ∀ a b, cmp a b < 0 ↔ ¬ le b a
  pos : ∀ a b, 0 < cmp a b ↔ ¬ le a b

/-- A shift for every name that is strictly on the other side guides every insertion. -/
theorem sort_sorted {le : Bytes → Bytes → Prop} (htotal : ∀ a b, le a b ∨ le b a)
    (htrans : ∀ a b c, le a b → le b c → le a c) (hshift : ∀ a b, shift a b = true ↔ ¬ le a b)
    (file : List Bytes) : (InsertionSort.sort shift file).Pairwise le := by
  have hfalse : ∀ a b, le a b → shift a b = false :=
    fun a b h => Bool.eq_false_iff.mpr fun htrue => (hshift a b).mp htrue h
  rw [InsertionSort.sort_sorted_iff htotal htrans (fun y x hyx _ => hfalse y x hyx)]
  · intro earlier x _
    exact ⟨fun y _ hyx => (hshift y x).mpr hyx,
      fun y _ hxy _ => hfalse y x ((htotal x y).resolve_left hxy)⟩
  · intro y z x hyz hzy
    rw [Bool.eq_iff_iff, hshift, hshift]
    exact not_congr ⟨fun hyx => htrans z y x hzy hyx, fun hzx => htrans y z x hyz hzx⟩

section Comparator

variable {cmp : Bytes → Bytes → Int} {le : Bytes → Bytes → Prop}

variable (h : Comparator cmp le)

include h

theorem orderBy_sorted (file : List Bytes) : (orderBy false cmp file).Pairwise le := by
  rw [orderBy_eq]
  exact sort_sorted h.total h.trans (fun a b => (shifts_false_iff _).trans (h.pos a b)) file

theorem orderBy_reversed (file : List Bytes) :
    (orderBy true cmp file).Pairwise fun a b => le b a := by
  rw [orderBy_eq]
  exact sort_sorted (fun a b => h.total b a) (fun a b c hab hbc => h.trans c b a hbc hab)
    (fun a b => (shifts_true_iff _).trans (h.neg a b)) file

theorem Comparator.eq_zero_iff (a b : Bytes) : cmp a b = 0 ↔ le a b ∧ le b a := by
  have hpos := h.pos a b
  have hneg := h.neg a b
  by_cases hab : le a b
  · by_cases hba : le b a
    · simp only [hab, hba, not_true_eq_false, iff_false] at hpos hneg
      simp only [hab, hba, and_self, iff_true]
      omega
    · simp only [hba, not_false_eq_true, iff_true] at hneg
      simp only [hba, and_false, iff_false]
      omega
  · simp only [hab, not_false_eq_true, iff_true] at hpos
    simp only [hab, false_and, iff_false]
    omega

/-- Names that compare equal to `z` are not shifted over each other. -/
theorem Comparator.eq_zero_of {x y z : Bytes} (hx : cmp z x = 0) (hy : cmp z y = 0) : cmp x y = 0 := by
  rw [h.eq_zero_iff] at hx hy ⊢
  exact ⟨h.trans x z y hx.2 hy.1, h.trans y z x hy.2 hx.1⟩

theorem orderBy_stable (r : Bool) (file : List Bytes) (z : Bytes) :
    (orderBy r cmp file).filter (fun x => cmp z x = 0) = file.filter fun x => cmp z x = 0 := by
  rw [orderBy_eq]
  refine InsertionSort.filter_sort fun y _ x _ hy hx => ?_
  rw [h.eq_zero_of (of_decide_eq_true hy) (of_decide_eq_true hx)]
  exact shifts_zero r

/-- Two sorted arrangements of names that are pairwise different are the same. -/
theorem orderBy_reverse {file : List Bytes} (hne : file.Pairwise fun a b => cmp a b ≠ 0) :
    orderBy true cmp file = (orderBy false cmp file).reverse := by
  have hsymm : Std.Symm fun a b => cmp a b ≠ 0 :=
    ⟨fun a b hab hba => hab ((h.eq_zero_iff a b).mpr ((h.eq_zero_iff b a).mp hba).symm)⟩
  have hperm : (orderBy true cmp file).Perm (orderBy false cmp file).reverse :=
    (orderBy_perm true cmp file).trans ((orderBy_perm false cmp file).symm.trans (List.reverse_perm _).symm)
  refine List.Perm.eq_of_pairwise (fun a b ha hb hba hab => ?_) (orderBy_reversed h file)
    (List.pairwise_reverse.mpr (orderBy_sorted h file)) hperm
  by_contra hab'
  have ha := (orderBy_perm true cmp file).mem_iff.mp ha
  have hb := (orderBy_perm false cmp file).mem_iff.mp (List.mem_reverse.mp hb)
  exact hne.forall ha hb hab' ((h.eq_zero_iff a b).mpr ⟨hab, hba⟩)

end Comparator

/-! ### Names -/

theorem strcmp_swap (a b : Bytes) : strcmp b a = -strcmp a b := by
  induction a generalizing b with
  | nil =>
      cases b with
      | nil => rfl
      | cons y ys => simp only [strcmp, Int.neg_neg]
  | cons x xs ih =>
      cases b with
      | nil => simp only [strcmp]
      | cons y ys =>
          by_cases hxy : x = y
          · subst hxy
            simp only [strcmp, if_true]
            split
            · rfl
            · exact ih ys
          · rw [strcmp, strcmp, if_neg hxy, if_neg (Ne.symm hxy)]
            omega

theorem strcmp_nil_le (b : Bytes) : strcmp [] b ≤ 0 := by
  cases b with
  | nil => exact Int.le_refl 0
  | cons y ys =>
      rw [strcmp]
      omega

theorem strcmp_cons_nil_le {x : UInt8} {xs : Bytes} : strcmp (x :: xs) [] ≤ 0 ↔ x = 0 := by
  rw [strcmp, ← UInt8.toNat_inj, UInt8.toNat_zero]
  omega

theorem strcmp_cons_le {x y : UInt8} {xs ys : Bytes} :
    strcmp (x :: xs) (y :: ys) ≤ 0 ↔ x < y ∨ x = y ∧ (x = 0 ∨ strcmp xs ys ≤ 0) := by
  rw [strcmp, UInt8.lt_iff_toNat_lt]
  by_cases hxy : x = y
  · subst hxy
    by_cases hx : x = 0
    · simp [hx]
    · simp [hx]
  · have hne : x.toNat ≠ y.toNat := fun h => hxy (UInt8.toNat_inj.mp h)
    rw [if_neg hxy]
    simp only [hxy, false_and, or_false]
    omega

theorem strcmp_trans (a b c : Bytes) (hab : strcmp a b ≤ 0) (hbc : strcmp b c ≤ 0) :
    strcmp a c ≤ 0 := by
  induction a generalizing b c with
  | nil => exact strcmp_nil_le c
  | cons x xs ih =>
      cases b with
      | nil =>
          -- `x` is the terminator
          obtain rfl := strcmp_cons_nil_le.mp hab
          cases c with
          | nil => exact strcmp_cons_nil_le.mpr rfl
          | cons z zs =>
              refine strcmp_cons_le.mpr ?_
              by_cases hz : z = 0
              · exact .inr ⟨hz.symm, .inl rfl⟩
              · exact .inl (UInt8.pos_iff_ne_zero.mpr hz)
      | cons y ys =>
          have hxy := strcmp_cons_le.mp hab
          cases c with
          | nil =>
              obtain rfl := strcmp_cons_nil_le.mp hbc
              rcases hxy with hlt | ⟨rfl, -⟩
              · exact absurd hlt UInt8.not_lt_zero
              · exact strcmp_cons_nil_le.mpr rfl
          | cons z zs =>
              refine strcmp_cons_le.mpr ?_
              rcases hxy with hxy | ⟨rfl, hxs⟩
              · rcases strcmp_cons_le.mp hbc with hyz | ⟨rfl, -⟩
                · exact .inl (UInt8.lt_trans hxy hyz)
                · exact .inl hxy
              · refine (strcmp_cons_le.mp hbc).imp_right fun hyz => ⟨hyz.1, ?_⟩
                rcases hxs with hx | hxs
                · exact .inl hx
                · exact hyz.2.imp_right (ih ys zs hxs)

/-- `strcmp` orders texts. -/
theorem strcmp_comparator : Comparator strcmp fun a b => strcmp a b ≤ 0 where
  total := by
    intro a b
    rw [strcmp_swap a b]
    omega
  trans := strcmp_trans
  neg := by
    intro a b
    rw [strcmp_swap a b]
    omega
  pos := by
    intro a b
    omega

/-- **`order` is a stable sort in both directions.** For pairwise different names, `OP_r` gives exactly the
reverse. -/
theorem order_stable {cmp : Bytes → Bytes → Int} {le : Bytes → Bytes → Prop} (h : Comparator cmp le)
    (file : List Bytes) :
    (∀ r, (orderBy r cmp file).Perm file ∧
      ∀ z, (orderBy r cmp file).filter (fun x => cmp z x = 0) = file.filter fun x => cmp z x = 0) ∧
    (orderBy false cmp file).Pairwise le ∧
    ((orderBy true cmp file).Pairwise fun a b => le b a) ∧
    ((file.Pairwise fun a b => cmp a b ≠ 0) →
      orderBy true cmp file = (orderBy false cmp file).reverse) ∧
    Comparator strcmp fun a b => strcmp a b ≤ 0 :=
  ⟨fun r => ⟨orderBy_perm r cmp file, orderBy_stable h r file⟩, orderBy_sorted h file,
    orderBy_reversed h file, orderBy_reverse h, strcmp_comparator⟩

theorem order_stable_sample :
    orderBy true strcmp [ascii "b", ascii "c", ascii "a"] = [ascii "c", ascii "b", ascii "a"] := by
  obtain ⟨-, -, -, hreverse, -⟩ := order_stable strcmp_comparator [ascii "b", ascii "c", ascii "a"]
  rw [hreverse (by decide)]
  decide

/-! ### Keys -/

/-- `order` rearranges files into non-increasing order of a key, with `r` into non-decreasing order. -/
def SortsBy (r : Bool) (stat : Bytes → Stat) (f : Field) (file : List Bytes) : Prop :=
  (order r stat (.field f) file).Perm file ∧
    (order r stat (.field f) file).Pairwise fun a b =>
      if r then (stat a).get f ≤ (stat b).get f else (stat b).get f ≤ (stat a).get f

/-- The `int` differences between the key `k` and the keys before it have the right sign where it matters:
for every key that `k` must pass, and for the nearest one that it must not pass. -/
def DifferencesFit (r : Bool) (before : List Int64) (k : Int64) : Prop :=
  if r then
    (∀ k' ∈ before, k < k' → difference k k' < 0) ∧
      ∀ k' ∈ before, k' < k → (∀ z ∈ before, z ≤ k → z ≤ k') → 0 ≤ difference k k'
  else
    (∀ k' ∈ before, k' < k → 0 < difference k k') ∧
      ∀ k' ∈ before, k < k' → (∀ z ∈ before, k ≤ z → k' ≤ z) → difference k k' ≤ 0

theorem difference_self (a : Int64) : difference a a = 0 := by
  rw [difference, Int64.sub_self]
  rfl

/-- The order in which the keys are to stand. -/
def inOrder (r : Bool) (a b : Int64) : Prop := if r then a ≤ b else b ≤ a

theorem inOrder_total (r : Bool) (a b : Int64) : inOrder r a b ∨ inOrder r b a := by
  cases r with
  | false => exact Int64.le_total b a
  | true => exact Int64.le_total a b

theorem inOrder_trans (r : Bool) {a b c : Int64} (hab : inOrder r a b) (hbc : inOrder r b c) :
    inOrder r a c := by
  cases r with
  | false => exact Int64.le_trans hbc hab
  | true => exact Int64.le_trans hab hbc

theorem inOrder_antisymm {r : Bool} {a b : Int64} (hab : inOrder r a b) (hba : inOrder r b a) :
    a = b := by
  cases r with
  | false => exact Int64.le_antisymm hba hab
  | true => exact Int64.le_antisymm hab hba

/-- The condition on the differences is that the test guides the insertion. -/
theorem guides_iff {r : Bool} {stat : Bytes → Stat} {f : Field} {earlier : List Bytes} {x : Bytes} :
    InsertionSort.Guides (fun prev tmp => shifts r (cmp stat (.field f) prev tmp))
      (fun a b => inOrder r ((stat a).get f) ((stat b).get f)) earlier x ↔
    DifferencesFit r (earlier.map fun a => (stat a).get f) ((stat x).get f) := by
  simp only [InsertionSort.Guides, DifferencesFit, List.forall_mem_map, cmp, ← Bool.not_eq_true]
  cases r with
  | false => simp only [inOrder, shifts_false_iff, Bool.false_eq_true, if_false, Int64.not_le, Int.not_lt]
  | true => simp only [inOrder, shifts_true_iff, if_true, Int64.not_le, Int.not_lt]

/-- The result is in order exactly if every insertion is guided. -/
theorem order_sorted_iff {r : Bool} {stat : Bytes → Stat} {f : Field} {file : List Bytes} :
    ((order r stat (.field f) file).Pairwise fun a b =>
      inOrder r ((stat a).get f) ((stat b).get f)) ↔
    ∀ earlier x, earlier ++ [x] <+: file →
      DifferencesFit r (earlier.map fun a => (stat a).get f) ((stat x).get f) := by
  have hstop : ∀ y x, inOrder r ((stat y).get f) ((stat x).get f) →
      inOrder r ((stat x).get f) ((stat y).get f) → shifts r (cmp stat (.field f) y x) = false := by
    intro y x hyx hxy
    rw [cmp, inOrder_antisymm hyx hxy, difference_self]
    exact shifts_zero r
  have hcongr : ∀ y z x, inOrder r ((stat y).get f) ((stat z).get f) →
      inOrder r ((stat z).get f) ((stat y).get f) →
      shifts r (cmp stat (.field f) y x) = shifts r (cmp stat (.field f) z x) := by
    intro y z x hyz hzy
    rw [cmp, cmp, inOrder_antisymm hyz hzy]
  rw [order, orderBy_eq, InsertionSort.sort_sorted_iff
    (fun a b => inOrder_total r ((stat a).get f) ((stat b).get f))
    (fun _ _ _ hab hbc => inOrder_trans r hab hbc) hstop hcongr]
  simp only [guides_iff]

/-- **When sorting by a key is right.** The result is in order exactly if the differences that decide have
the right sign as an `int`. -/
theorem order_field_iff (r : Bool) (stat : Bytes → Stat) (f : Field) (file : List Bytes) :
    SortsBy r stat f file ↔ ∀ earlier x, earlier ++ [x] <+: file →
      DifferencesFit r (earlier.map fun a => (stat a).get f) ((stat x).get f) := by
  rw [← order_sorted_iff]
  exact and_iff_right (orderBy_perm r _ file)

/-- Sizes 0 and 2 ^ 31. -/
def farStat (name : Bytes) : Stat where
  mode := 0o100644
  ino := 0
  nlink := 1
  uid := 0
  gid := 0
  size := if name = ascii "b" then 2147483648 else 0
  blocks := 0
  atime := 0
  mtime := 0
  ctime := 0

theorem order_size_wrong : ¬ SortsBy false farStat .size [ascii "a", ascii "b"] := by
  rintro ⟨-, hsorted⟩
  have horder : order false farStat (.field .size) [ascii "a", ascii "b"] = [ascii "a", ascii "b"] := by
    decide
  rw [horder, List.pairwise_cons] at hsorted
  have hle := hsorted.1 (ascii "b") List.mem_cons_self
  revert hle
  decide

theorem difference_eq {a b : Int64} (hlow : -2 ^ 31 ≤ a.toInt - b.toInt)
    (hhigh : a.toInt - b.toInt < 2 ^ 31) : difference a b = a.toInt - b.toInt := by
  rw [difference, Int64.toInt_toInt32, Int64.toInt_sub, Int.bmod_bmod_of_dvd (by decide)]
  exact Int.bmod_eq_of_le (by omega) (by omega)

/-- Keys that are less than 2 ^ 31 apart are sorted right. -/
theorem sortsBy_of_near {stat : Bytes → Stat} {f : Field} {file : List Bytes}
    (hnear : ∀ a ∈ file, ∀ b ∈ file, ((stat a).get f).toInt - ((stat b).get f).toInt < 2 ^ 31)
    (r : Bool) : SortsBy r stat f file := by
  refine ⟨orderBy_perm r _ file, order_sorted_iff.mpr fun earlier x hpre => ?_⟩
  have hx : x ∈ file := hpre.subset (List.mem_append_right _ List.mem_cons_self)
  have hearlier : ∀ a ∈ earlier, a ∈ file := fun a ha => hpre.subset (List.mem_append_left _ ha)
  have hexact : ∀ a ∈ earlier, difference ((stat x).get f) ((stat a).get f) =
      ((stat x).get f).toInt - ((stat a).get f).toInt := by
    intro a ha
    have hxa := hnear x hx a (hearlier a ha)
    have hax := hnear a (hearlier a ha) x hx
    exact difference_eq (by omega) hxa
  have hpos : ∀ a ∈ earlier, (stat a).get f < (stat x).get f →
      0 < difference ((stat x).get f) ((stat a).get f) := by
    intro a ha hlt
    rw [Int64.lt_iff_toInt_lt] at hlt
    rw [hexact a ha]
    omega
  have hneg : ∀ a ∈ earlier, (stat x).get f < (stat a).get f →
      difference ((stat x).get f) ((stat a).get f) < 0 := by
    intro a ha hlt
    rw [Int64.lt_iff_toInt_lt] at hlt
    rw [hexact a ha]
    omega
  rw [DifferencesFit]
  simp only [List.forall_mem_map]
  split
  · exact ⟨hneg, fun a ha hlt _ => (hpos a ha hlt).le⟩
  · exact ⟨hpos, fun a ha hlt _ => (hneg a ha hlt).le⟩

end SmallTrial.Listing

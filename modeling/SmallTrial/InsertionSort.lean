import Mathlib.Data.List.DropRight
import Mathlib.Data.List.Perm.Basic
import Mathlib.Data.List.Sort

/-! Insertion sort with any test for shifting an element to the right. For a test that need not come from
an order, the exact condition under which the result is sorted. -/

namespace InsertionSort

variable {α : Type*}

/-- Inserts `x` from the right: the elements at the end that `shift` moves stand behind it. -/
def insert (shift : α → α → Bool) (x : α) (l : List α) : List α :=
  l.rdropWhile (fun y => shift y x) ++ x :: l.rtakeWhile (fun y => shift y x)

/-- The elements are inserted one after the other. -/
def sort (shift : α → α → Bool) (l : List α) : List α := l.foldl (fun sorted x => insert shift x sorted) []

/-- The test shifts every earlier element that belongs behind `x`, and stops at the one that belongs
right before it. -/
def Guides (shift : α → α → Bool) (le : α → α → Prop) (earlier : List α) (x : α) : Prop :=
  (∀ y ∈ earlier, ¬ le y x → shift y x = true) ∧
    ∀ y ∈ earlier, ¬ le x y → (∀ z ∈ earlier, le z x → le z y) → shift y x = false

variable {shift : α → α → Bool}

/-! ### The elements -/

theorem sort_concat (l : List α) (x : α) : sort shift (l ++ [x]) = insert shift x (sort shift l) := by
  rw [sort, List.foldl_append, List.foldl_cons, List.foldl_nil]
  rfl

theorem insert_concat_of_shift {x y : α} (h : shift y x = true) (l : List α) :
    insert shift x (l ++ [y]) = insert shift x l ++ [y] := by
  have hdrop := List.rdropWhile_concat (fun y => shift y x) l y
  have htake := List.rtakeWhile_concat (fun y => shift y x) l y
  rw [if_pos h] at hdrop htake
  rw [insert, hdrop, htake, insert, List.append_assoc, List.cons_append]

theorem insert_concat_of_stop {x y : α} (h : ¬ shift y x = true) (l : List α) :
    insert shift x (l ++ [y]) = l ++ [y, x] := by
  have hdrop := List.rdropWhile_concat (fun y => shift y x) l y
  have htake := List.rtakeWhile_concat (fun y => shift y x) l y
  rw [if_neg h] at hdrop htake
  rw [insert, hdrop, htake, List.append_assoc, List.cons_append, List.nil_append]

/-- The two parts of the list that `x` goes between. -/
theorem kept_append_moved (shift : α → α → Bool) (x : α) (l : List α) :
    l.rdropWhile (fun y => shift y x) ++ l.rtakeWhile (fun y => shift y x) = l :=
  List.rdropWhile_append_rtakeWhile

theorem insert_perm (x : α) (l : List α) : (insert shift x l).Perm (l ++ [x]) := by
  have hmiddle : (insert shift x l).Perm
      (x :: (l.rdropWhile (fun y => shift y x) ++ l.rtakeWhile (fun y => shift y x))) :=
    List.perm_middle
  rw [List.rdropWhile_append_rtakeWhile] at hmiddle
  exact hmiddle.trans (List.perm_append_singleton x l).symm

theorem sort_perm (l : List α) : (sort shift l).Perm l := by
  induction l using List.reverseRecOn with
  | nil => exact List.Perm.refl []
  | append_singleton l x ih =>
      rw [sort_concat]
      exact (insert_perm x _).trans (ih.append_right [x])

theorem mem_sort {l : List α} {x : α} : x ∈ sort shift l ↔ x ∈ l := (sort_perm l).mem_iff

/-- The elements that were there keep their order. -/
theorem sublist_insert (x : α) (l : List α) : l.Sublist (insert shift x l) := by
  have hsub := (List.sublist_cons_self x (l.rtakeWhile fun y => shift y x)).append_left
    (l.rdropWhile fun y => shift y x)
  rwa [List.rdropWhile_append_rtakeWhile] at hsub

theorem shift_of_moved {x y : α} {l : List α} (hy : y ∈ l.rtakeWhile fun y => shift y x) :
    shift y x = true := by
  have htrue := @List.mem_rtakeWhile_imp α (fun y => shift y x) l y hy
  exact htrue

/-- Elements that do not shift each other keep their order. -/
theorem filter_insert {p : α → Bool} {x : α} {l : List α}
    (h : ∀ y ∈ l, p y = true → p x = true → shift y x = false) :
    (insert shift x l).filter p = (l ++ [x]).filter p := by
  have hsplit := congrArg (List.filter p) (kept_append_moved shift x l)
  rw [List.filter_append] at hsplit
  rw [insert, List.filter_append, List.filter_append]
  cases hx : p x with
  | false =>
      have hneg : ¬ p x = true := by simp [hx]
      rw [List.filter_cons_of_neg hneg, hsplit, List.filter_cons_of_neg hneg, List.filter_nil,
        List.append_nil]
  | true =>
      have hnil : (l.rtakeWhile fun y => shift y x).filter p = [] := by
        rw [List.filter_eq_nil_iff]
        intro y hy hpy
        have hmem : y ∈ l := (List.rtakeWhile_suffix _ _).subset hy
        have hshift := shift_of_moved hy
        rw [h y hmem hpy hx] at hshift
        cases hshift
      rw [hnil, List.append_nil] at hsplit
      rw [List.filter_cons_of_pos hx, hnil, hsplit, List.filter_cons_of_pos hx, List.filter_nil]

/-- **Stability.** -/
theorem filter_sort {p : α → Bool} {l : List α}
    (h : ∀ y ∈ l, ∀ x ∈ l, p y = true → p x = true → shift y x = false) :
    (sort shift l).filter p = l.filter p := by
  induction l using List.reverseRecOn with
  | nil => rfl
  | append_singleton l x ih =>
      have hx : x ∈ l ++ [x] := List.mem_append_right _ List.mem_cons_self
      have hl : ∀ y ∈ l, y ∈ l ++ [x] := fun y hy => List.mem_append_left _ hy
      rw [sort_concat, filter_insert fun y hy => h y (hl y (mem_sort.mp hy)) x hx, List.filter_append,
        List.filter_append, ih fun y hy z hz => h y (hl y hy) z (hl z hz)]

/-! ### The order -/

/-- A sorted list in two parts: the test stops at the end of the first and shifts all of the second. -/
structure Cut (shift : α → α → Bool) (le : α → α → Prop) (x : α) (kept moved : List α) : Prop where
  sorted : (kept ++ moved).Pairwise le
  stop : ∀ hne : kept ≠ [], shift (kept.getLast hne) x = false
  shift : ∀ y ∈ moved, shift y x = true

theorem cut_of_sorted (shift : α → α → Bool) {le : α → α → Prop} (x : α) {l : List α}
    (hl : l.Pairwise le) :
    Cut shift le x (l.rdropWhile fun y => shift y x) (l.rtakeWhile fun y => shift y x) where
  sorted := by
    rw [kept_append_moved]
    exact hl
  stop := fun hne => Bool.eq_false_iff.mpr (List.rdropWhile_last_not _ _ hne)
  shift := fun _ hy => shift_of_moved hy

section Order

variable {le : α → α → Prop} (htotal : ∀ a b, le a b ∨ le b a)
  (htrans : ∀ a b c, le a b → le b c → le a c)

include htotal

/-- In a sorted list nothing is above the last element. -/
theorem le_getLast {l : List α} (hl : l.Pairwise le) (hne : l ≠ []) : ∀ y ∈ l, le y (l.getLast hne) := by
  intro y hy
  rw [← List.dropLast_append_getLast hne, List.pairwise_append] at hl
  rw [← List.dropLast_append_getLast hne, List.mem_append, List.mem_singleton] at hy
  rcases hy with hy | hy
  · exact hl.2.2 y hy _ List.mem_cons_self
  · rw [← hy]
    exact (htotal y y).elim id id

include htrans

/-- A list that is not empty has a greatest element. -/
theorem exists_greatest {l : List α} (hne : l ≠ []) : ∃ y ∈ l, ∀ z ∈ l, le z y := by
  have hrefl : ∀ a, le a a := fun a => (htotal a a).elim id id
  induction l with
  | nil => exact absurd rfl hne
  | cons a l ih =>
      by_cases hl : l = []
      · refine ⟨a, List.mem_cons_self, fun z hz => ?_⟩
        rw [hl, List.mem_singleton] at hz
        exact hz ▸ hrefl a
      · obtain ⟨y, hy, hgreatest⟩ := ih hl
        rcases htotal a y with hay | hya
        · refine ⟨y, List.mem_cons_of_mem _ hy, fun z hz => ?_⟩
          rcases List.mem_cons.mp hz with rfl | hz
          · exact hay
          · exact hgreatest z hz
        · refine ⟨a, List.mem_cons_self, fun z hz => ?_⟩
          rcases List.mem_cons.mp hz with rfl | hz
          · exact hrefl z
          · exact htrans z y a (hgreatest z hz) hya

variable (hstop : ∀ y x, le y x → le x y → shift y x = false)
  (hcongr : ∀ y z x, le y z → le z y → shift y x = shift z x)

namespace Cut

variable {x : α} {kept moved : List α} (h : Cut shift le x kept moved)

include h

omit htrans in
/-- If the element goes to the right place, the test guides it. -/
theorem guides (hcongr : ∀ y z x, le y z → le z y → shift y x = shift z x)
    (hkept : ∀ y ∈ kept, le y x) (hmoved : ∀ y ∈ moved, le x y) :
    Guides shift le (kept ++ moved) x := by
  refine ⟨fun y hy hyx => ?_, fun y hy hxy hgreatest => ?_⟩
  · rcases List.mem_append.mp hy with hy | hy
    · exact absurd (hkept y hy) hyx
    · exact h.shift y hy
  · rcases List.mem_append.mp hy with hy | hy
    · have hne : kept ≠ [] := List.ne_nil_of_mem hy
      have hmem := List.getLast_mem hne
      have hle := hgreatest _ (List.mem_append_left _ hmem) (hkept _ hmem)
      have hge := le_getLast htotal (List.pairwise_append.mp h.sorted).1 hne y hy
      rw [hcongr y _ x hge hle]
      exact h.stop hne
    · exact absurd (hmoved y hy) hxy

theorem kept_le (hguides : Guides shift le (kept ++ moved) x) : ∀ y ∈ kept, le y x := by
  intro y hy
  have hne : kept ≠ [] := List.ne_nil_of_mem hy
  have hlast : le (kept.getLast hne) x := by
    by_contra hnot
    have htrue := hguides.1 _ (List.mem_append_left _ (List.getLast_mem hne)) hnot
    rw [h.stop hne] at htrue
    cases htrue
  exact htrans _ _ _ (le_getLast htotal (List.pairwise_append.mp h.sorted).1 hne y hy) hlast

include hstop hcongr in
/-- An element that is moved although it is not above `x` would have been stopped by the greatest one at
or below `x`. -/
theorem le_moved (hguides : Guides shift le (kept ++ moved) x) : ∀ y ∈ moved, le x y := by
  intro b hb
  by_contra hxb
  have hbx : le b x := (htotal x b).resolve_left hxb
  classical
  have hb' : b ∈ (kept ++ moved).filter fun z => decide (le z x) :=
    List.mem_filter.mpr ⟨List.mem_append_right kept hb, decide_eq_true hbx⟩
  obtain ⟨y, hy, hgreatest⟩ := exists_greatest htotal htrans (List.ne_nil_of_mem hb')
  obtain ⟨hmem, hyx⟩ := List.mem_filter.mp hy
  have hyx := of_decide_eq_true hyx
  have hgreatest : ∀ z ∈ kept ++ moved, le z x → le z y :=
    fun z hz hzx => hgreatest z (List.mem_filter.mpr ⟨hz, decide_eq_true hzx⟩)
  have hby := hgreatest b (List.mem_append_right _ hb) hbx
  have hshift : shift y x = true := by
    rcases List.mem_append.mp hmem with hkept | hmoved
    · rw [hcongr y b x ((List.pairwise_append.mp h.sorted).2.2 y hkept b hb) hby]
      exact h.shift b hb
    · exact h.shift y hmoved
  by_cases hxy : le x y
  · rw [hstop y x hyx hxy] at hshift
    cases hshift
  · rw [hguides.2 y hmem hxy hgreatest] at hshift
    cases hshift

end Cut

include hstop hcongr

/-- Inserting into a sorted list keeps it sorted exactly if the test guides it. -/
theorem insert_sorted_iff {x : α} {l : List α} (hl : l.Pairwise le) :
    (insert shift x l).Pairwise le ↔ Guides shift le l x := by
  have hcut := cut_of_sorted shift x hl
  have happend := kept_append_moved shift x l
  constructor
  · intro hsorted
    obtain ⟨-, hx, hkept⟩ := List.pairwise_append.mp hsorted
    have hguides := hcut.guides htotal hcongr (fun y hy => hkept y hy x List.mem_cons_self)
      (List.pairwise_cons.mp hx).1
    rwa [happend] at hguides
  · intro hguides
    rw [← happend] at hguides
    have hkept := hcut.kept_le htotal htrans hguides
    have hmoved := hcut.le_moved htotal htrans hstop hcongr hguides
    obtain ⟨hkeptSorted, hmovedSorted, hbetween⟩ := List.pairwise_append.mp hcut.sorted
    refine List.pairwise_append.mpr
      ⟨hkeptSorted, List.pairwise_cons.mpr ⟨hmoved, hmovedSorted⟩, fun y hy z hz => ?_⟩
    rcases List.mem_cons.mp hz with rfl | hz
    · exact hkept y hy
    · exact hbetween y hy z hz

/-- **When insertion sort sorts.** The result is sorted exactly if each insertion is guided. -/
theorem sort_sorted_iff (l : List α) :
    (sort shift l).Pairwise le ↔ ∀ earlier x, earlier ++ [x] <+: l → Guides shift le earlier x := by
  induction l using List.reverseRecOn with
  | nil =>
      constructor
      · intro _ earlier x hpre
        have hlen := hpre.length_le
        rw [List.length_append] at hlen
        cases hlen
      · exact fun _ => List.Pairwise.nil
  | append_singleton l a ih =>
      have hguides : Guides shift le (sort shift l) a ↔ Guides shift le l a := by
        simp only [Guides, mem_sort]
      rw [sort_concat]
      constructor
      · intro hsorted earlier x hpre
        have hl : (sort shift l).Pairwise le := hsorted.sublist (sublist_insert a _)
        rcases List.prefix_concat_iff.mp hpre with heq | hpre
        · obtain ⟨rfl, hxa⟩ := List.append_inj' heq rfl
          cases hxa
          exact hguides.mp ((insert_sorted_iff htotal htrans hstop hcongr hl).mp hsorted)
        · exact ih.mp hl earlier x hpre
      · intro h
        have hl : (sort shift l).Pairwise le :=
          ih.mpr fun earlier x hpre => h earlier x (hpre.trans (List.prefix_append l [a]))
        exact (insert_sorted_iff htotal htrans hstop hcongr hl).mpr
          (hguides.mpr (h l a List.prefix_rfl))

end Order

end InsertionSort

import Mathlib.Data.List.Pairwise
import Mathlib.Data.List.Perm.Basic

/-! Bubble sort with any test for exchanging two neighbours. One pass carries an element to the right and
leaves one at the end that no other exceeds; the passes together sort, and elements that the test never
exchanges keep their order. -/

namespace BubbleSort

variable {α : Type*}

/-- A pass that carries `x`: it exchanges `x` with the next element, or carries that one on. -/
def pass (gt : α → α → Bool) : α → List α → List α
  | x, [] => [x]
  | x, y :: l => if gt x y then y :: pass gt x l else x :: pass gt y l

/-- All but the first `n` elements are in their final places. -/
def Settled (le : α → α → Prop) (l : List α) (n : Nat) : Prop :=
  (l.drop n).Pairwise le ∧ ∀ a ∈ l.take n, ∀ b ∈ l.drop n, le a b

variable {gt : α → α → Bool}

theorem pass_perm (x : α) (l : List α) : (pass gt x l).Perm (x :: l) := by
  induction l generalizing x with
  | nil => exact List.Perm.refl [x]
  | cons y l ih =>
      rw [pass]
      split
      · exact ((ih x).cons y).trans (List.Perm.swap x y l)
      · exact (ih y).cons x

/-- **Stability of a pass.** Elements that are not exchanged with each other keep their order. -/
theorem filter_pass {p : α → Bool} (x : α) (l : List α)
    (h : ∀ a b, p a = true → p b = true → gt a b = false) :
    (pass gt x l).filter p = (x :: l).filter p := by
  induction l generalizing x with
  | nil => rfl
  | cons y l ih =>
      rw [pass]
      split
      · rename_i hgt
        have hnot : ¬(p x = true ∧ p y = true) := by
          rintro ⟨hx, hy⟩
          rw [h x y hx hy] at hgt
          cases hgt
        rw [List.filter_cons, ih, List.filter_cons, List.filter_cons, List.filter_cons]
        by_cases hx : p x = true
        · have hy : ¬p y = true := fun hy => hnot ⟨hx, hy⟩
          simp [hx, hy]
        · simp [hx]
      · have htail := ih y
        simp only [List.filter_cons] at htail ⊢
        rw [htail]

section Order

variable {le : α → α → Prop} (hgt : ∀ a b, gt a b = true ↔ ¬le a b)
  (htotal : ∀ a b, le a b ∨ le b a) (htrans : ∀ a b c, le a b → le b c → le a c)

include hgt htotal htrans

/-- A pass ends with an element that no other exceeds. -/
theorem pass_eq (x : α) (l : List α) :
    ∃ front last, pass gt x l = front ++ [last] ∧ ∀ a ∈ x :: l, le a last := by
  have hrefl : ∀ a, le a a := fun a => (htotal a a).elim id id
  induction l generalizing x with
  | nil => exact ⟨[], x, rfl, List.forall_mem_singleton.mpr (hrefl x)⟩
  | cons y l ih =>
      rw [pass]
      by_cases hxy : gt x y = true
      · obtain ⟨front, last, hpass, hlast⟩ := ih x
        have hyx : le y x := (htotal x y).resolve_left ((hgt x y).mp hxy)
        obtain ⟨hx, hl⟩ := List.forall_mem_cons.mp hlast
        refine ⟨y :: front, last, ?_, ?_⟩
        · rw [if_pos hxy, hpass, List.cons_append]
        · exact List.forall_mem_cons.mpr ⟨hx, List.forall_mem_cons.mpr ⟨htrans y x last hyx hx, hl⟩⟩
      · obtain ⟨front, last, hpass, hlast⟩ := ih y
        have hle : le x y := by
          by_contra hnot
          exact hxy ((hgt x y).mpr hnot)
        refine ⟨x :: front, last, ?_, ?_⟩
        · rw [if_neg hxy, hpass, List.cons_append]
        · exact List.forall_mem_cons.mpr ⟨htrans x y last hle (hlast y List.mem_cons_self), hlast⟩

/-- A pass over the elements that are not settled settles one of them. -/
theorem Settled.pass {x : α} {l back : List α} (h : Settled le (x :: l ++ back) (l.length + 1)) :
    Settled le (pass gt x l ++ back) l.length := by
  obtain ⟨front, last, hpass, hlast⟩ := pass_eq hgt htotal htrans x l
  have hperm : (BubbleSort.pass gt x l).Perm (x :: l) := pass_perm x l
  rw [hpass] at hperm ⊢
  have hfront : front.length = l.length := by
    have hlen := hperm.length_eq
    rw [List.length_append, List.length_singleton, List.length_cons] at hlen
    omega
  have hmem : ∀ a ∈ front ++ [last], a ∈ x :: l := fun a ha => hperm.subset ha
  obtain ⟨hback, hbetween⟩ := h
  rw [List.take_left' (List.length_cons ..), List.drop_left' (List.length_cons ..)] at hbetween
  rw [List.drop_left' (List.length_cons ..)] at hback
  rw [Settled, List.append_assoc, List.take_left' hfront, List.drop_left' hfront, List.singleton_append]
  refine ⟨List.pairwise_cons.mpr ⟨fun b hb => ?_, hback⟩, fun a ha b hb => ?_⟩
  · exact hbetween last (hmem last (List.mem_append_right _ List.mem_cons_self)) b hb
  · have ha := hmem a (List.mem_append_left _ ha)
    rcases List.mem_cons.mp hb with rfl | hb
    · exact hlast a ha
    · exact hbetween a ha b hb

end Order

theorem settled_length (le : α → α → Prop) (l : List α) : Settled le l l.length := by
  rw [Settled, List.drop_length]
  exact ⟨List.Pairwise.nil, fun _ _ _ hb => by cases hb⟩

/-- One element that is not settled has only one place left. -/
theorem Settled.sorted {le : α → α → Prop} {l : List α} {n : Nat} (h : Settled le l n) (hn : n ≤ 1) :
    l.Pairwise le := by
  obtain ⟨hback, hbetween⟩ := h
  rw [← List.take_append_drop n l, List.pairwise_append]
  refine ⟨?_, hback, hbetween⟩
  have hlen : (l.take n).length ≤ 1 := Nat.le_trans (List.length_take_le n l) hn
  cases hfront : l.take n with
  | nil => exact List.Pairwise.nil
  | cons a rest =>
      rw [hfront, List.length_cons] at hlen
      obtain rfl : rest = [] := List.length_eq_zero_iff.mp (by omega)
      exact List.pairwise_singleton le a

end BubbleSort

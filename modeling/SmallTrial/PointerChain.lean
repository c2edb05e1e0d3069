import Mathlib.Data.List.Nodup
import Mathlib.Data.Option.Basic
import Mathlib.Logic.Relation

/-! A chain of pointers: the nodes that are reached from the first one, in order, each only once. How the
chain is found from the pointers, and what is written down of a pointer that moves along it. -/

namespace Pointer

variable {α : Type*}

/-- `b` is the node after `a`. -/
def Next (next : α → Option α) (a b : α) : Prop := next a = some b

/-- `a` is reached from `p`. -/
def Reached (next : α → Option α) (p a : α) : Prop := Relation.ReflTransGen (Next next) p a

/-- The nodes of `l` from `p` on: each points to the one behind it, and the last one to nothing. -/
structure Chain (next : α → Option α) (p : α) (l : List α) : Prop where
  first : l[0]? = some p
  nodup : l.Nodup
  next_eq : ∀ i a, l[i]? = some a → next a = l[i + 1]?

namespace Chain

variable {next : α → Option α} {p a b : α} {l : List α}

theorem reached (H : Chain next p l) {i : Nat} (hi : l[i]? = some a) : Reached next p a := by
  induction i generalizing a with
  | zero =>
      obtain rfl := Option.some.inj (H.first.symm.trans hi)
      exact .refl
  | succ i ih =>
      obtain ⟨b, hb⟩ : ∃ b, l[i]? = some b :=
        ⟨_, List.getElem?_eq_getElem (Nat.lt_of_succ_lt (List.getElem?_eq_some_iff.mp hi).1)⟩
      exact (ih hb).tail ((H.next_eq i b hb).trans hi)

theorem next_index (H : Chain next p l) {i : Nat} (hi : l[i]? = some a) (hab : Next next a b) :
    l[i + 1]? = some b := (H.next_eq i a hi).symm.trans hab

/-- The chain has all nodes that are reached. -/
theorem reached_iff (H : Chain next p l) : Reached next p a ↔ a ∈ l := by
  constructor
  · intro h
    induction h with
    | refl => exact List.mem_of_getElem? H.first
    | tail _ hab ih =>
        obtain ⟨i, hi⟩ := List.mem_iff_getElem?.mp ih
        exact List.mem_of_getElem? (H.next_index hi hab)
  · intro h
    obtain ⟨i, hi⟩ := List.mem_iff_getElem?.mp h
    exact H.reached hi

theorem index_inj (H : Chain next p l) {i j : Nat} (hi : l[i]? = some a) (hj : l[j]? = some a) : i = j :=
  (List.getElem?_inj (List.getElem?_eq_some_iff.mp hi).1 H.nodup).mp (hi.trans hj.symm)

/-- The nodes behind a node stand further down in the chain. -/
theorem lt_of_transGen (H : Chain next p l) {i : Nat} (hi : l[i]? = some a)
    (h : Relation.TransGen (Next next) a b) : ∃ j, i < j ∧ l[j]? = some b := by
  induction h with
  | single hab => exact ⟨i + 1, Nat.lt_succ_self i, H.next_index hi hab⟩
  | tail _ hbc ih =>
      obtain ⟨j, hij, hj⟩ := ih
      exact ⟨j + 1, Nat.lt_succ_of_lt hij, H.next_index hj hbc⟩

theorem acyclic (H : Chain next p l) (ha : a ∈ l) : ¬Relation.TransGen (Next next) a a := by
  intro h
  obtain ⟨i, hi⟩ := List.mem_iff_getElem?.mp ha
  obtain ⟨j, hij, hj⟩ := H.lt_of_transGen hi h
  exact absurd (H.index_inj hi hj) (Nat.ne_of_lt hij)

/-- Only the last node points to nothing. -/
theorem next_eq_none_iff (H : Chain next p l) (ha : a ∈ l) : next a = none ↔ l.getLast? = some a := by
  obtain ⟨i, hi⟩ := List.mem_iff_getElem?.mp ha
  have hlt := (List.getElem?_eq_some_iff.mp hi).1
  rw [H.next_eq i a hi, List.getElem?_eq_none_iff, List.getLast?_eq_getElem?]
  constructor
  · intro hle
    rwa [show l.length - 1 = i by omega]
  · intro hlast
    have := H.index_inj hi hlast
    omega

end Chain

/-! ### A pointer that moves along the chain -/

/-- `log` has the nodes up to the place of the pointer `ptr`, each once. -/
def Passed (l : List α) (ptr : Option α) (log : List (Option α)) : Prop :=
  ∃ i, i < l.length ∧ ptr = l[i]? ∧ log = (l.take (i + 1)).map some

variable {next : α → Option α} {p : α} {l : List α} {ptr : Option α} {log : List (Option α)}

theorem Passed.grow (H : Passed l ptr log) {l' : List α} (hl : l <+: l') : Passed l' ptr log := by
  obtain ⟨i, hi, hptr, hlog⟩ := H
  obtain ⟨rest, rfl⟩ := hl
  have hlen : i < (l ++ rest).length := by
    rw [List.length_append]
    omega
  refine ⟨i, hlen, ?_, ?_⟩
  · rw [List.getElem?_append_left hi, hptr]
  · rw [List.take_append_of_le_length hi, hlog]

/-- The pointer moves to the next node. -/
theorem Passed.move (H : Passed l ptr log) (HC : Chain next p l) {a b : α} (hptr : ptr = some a)
    (hab : Next next a b) : Passed l (some b) (log ++ [some b]) := by
  obtain ⟨i, -, hi, hlog⟩ := H
  have hb := HC.next_index (hi.symm.trans hptr) hab
  refine ⟨i + 1, (List.getElem?_eq_some_iff.mp hb).1, hb.symm, ?_⟩
  have htake : l.take (i + 1 + 1) = l.take (i + 1) ++ [b] := by
    rw [List.take_add_one, hb, Option.toList_some]
  rw [hlog, htake, List.map_append, List.map_singleton]

theorem Passed.eq_take (H : Passed l ptr log) (hnodup : l.Nodup) {i : Nat} (hi : ptr = l[i]?) :
    log = (l.take (i + 1)).map some := by
  obtain ⟨j, hj, hptr, hlog⟩ := H
  obtain rfl := (List.getElem?_inj hj hnodup).mp (hptr.symm.trans hi)
  exact hlog

theorem Passed.nodup (H : Passed l ptr log) (hnodup : l.Nodup) : log.Nodup := by
  obtain ⟨i, -, -, rfl⟩ := H
  exact (hnodup.sublist (List.take_sublist (i + 1) l)).map (Option.some_injective α)

end Pointer

import Mathlib.Order.Lattice
import SmallTrial.BubbleSort

/-! `bubble_sort` of `pta.py`, which `print_PTA` calls to list the questions by their pass rate. It sorts the
list in place, comparing the first components of neighbours. -/

namespace SmallTrial.Pta

/-- What Python raises for an index outside a list. -/
inductive PyError where
  | indexError
  deriving DecidableEq

variable {α K : Type*}

/-- `question[j]`; the indices of the loops are not negative. -/
def getItem (question : List α) (j : Nat) : Except PyError α :=
  match question[j]? with
  | some q => .ok q
  | none => .error .indexError

/-- `question[j] = q` -/
def setItem (question : List α) (j : Nat) (q : α) : Except PyError (List α) :=
  if j < question.length then .ok (question.set j q) else .error .indexError

variable [LinearOrder K] (first : α → K)

/-- The body of the inner loop; `first q` is `q[0]`. -/
def compareSwap (question : List α) (j : Nat) : Except PyError (List α) := do
  let a ← getItem question j
  let b ← getItem question (j + 1)
  if first a > first b then
    let question ← setItem question j b
    setItem question (j + 1) a
  else return question

/-- `for j in range(0,count-i)` -/
def innerLoop (count : Nat) (question : List α) (i : Nat) : Except PyError (List α) :=
  (List.range' 0 (count - i)).foldlM (compareSwap first) question

/-- `bubble_sort`: the list that it leaves and returns. -/
def bubbleSort (question : List α) : Except PyError (List α) :=
  (List.range' 1 (question.length - 1)).foldlM (innerLoop first question.length) question

/-- The test for exchanging two neighbours. -/
def gt (a b : α) : Bool := decide (first a > first b)

variable {first}

/-! ### The loops make passes -/

/-- Two neighbours behind the elements in `before`. -/
theorem compareSwap_eq (before rest : List α) (a b : α) :
    compareSwap first (before ++ a :: b :: rest) before.length =
      .ok (if gt first a b then before ++ b :: a :: rest else before ++ a :: b :: rest) := by
  have ha : (before ++ a :: b :: rest)[before.length]? = some a := by simp
  have hb : (before ++ a :: b :: rest)[before.length + 1]? = some b := by simp
  have hset : (before ++ a :: b :: rest).set before.length b = before ++ b :: b :: rest := by simp
  have hset' : (before ++ b :: b :: rest).set (before.length + 1) a = before ++ b :: a :: rest := by simp
  have hlt : before.length < (before ++ a :: b :: rest).length := by simp
  have hlt' : before.length + 1 < (before ++ b :: b :: rest).length := by simp
  simp only [compareSwap, getItem, ha, hb, setItem, hset, hlt, if_true, bind, Except.bind, gt,
    decide_eq_true_eq]
  split
  · rw [hset']
  · rfl

/-- The inner loop carries an element through those that follow. -/
theorem innerLoop_from (before rest l : List α) (x : α) :
    (List.range' before.length l.length).foldlM (compareSwap first) (before ++ x :: (l ++ rest)) =
      .ok (before ++ BubbleSort.pass (gt first) x l ++ rest) := by
  induction l generalizing before x with
  | nil => simp [BubbleSort.pass, pure, Except.pure]
  | cons y l ih =>
      rw [List.length_cons, List.range'_succ, List.foldlM_cons, List.cons_append, compareSwap_eq,
        BubbleSort.pass]
      simp only [bind, Except.bind]
      split
      · have hnext := ih (before ++ [y]) x
        simpa using hnext
      · have hnext := ih (before ++ [x]) y
        simpa using hnext

/-- What the passes have done so far: `q` has the questions of the list, in their order where the pass rates
are equal, and all but `n` are in their final places. -/
structure Sorting (first : α → K) (question q : List α) (n : Nat) : Prop where
  perm : q.Perm question
  settled : BubbleSort.Settled (fun a b => first a ≤ first b) q n
  stable : ∀ rate, q.filter (fun a => decide (first a = rate)) =
    question.filter fun a => decide (first a = rate)

theorem gt_iff (a b : α) : gt first a b = true ↔ ¬first a ≤ first b := by
  rw [gt, decide_eq_true_iff, not_le]

theorem not_gt_of_eq {rate : K} (a b : α) (ha : decide (first a = rate) = true)
    (hb : decide (first b = rate) = true) : gt first a b = false := by
  have heq : first a = first b := (of_decide_eq_true ha).trans (of_decide_eq_true hb).symm
  rw [gt, heq, decide_eq_false_iff_not]
  exact lt_irrefl _

/-- An iteration of the outer loop settles one more question. -/
theorem Sorting.innerLoop {question q : List α} {i : Nat} (hi : i < question.length) (hpos : 0 < i)
    (h : Sorting first question q (question.length - i + 1)) :
    ∃ q', innerLoop first question.length q i = .ok q' ∧
      Sorting first question q' (question.length - i) := by
  have hlen := h.perm.length_eq
  obtain ⟨x, l, hfront⟩ : ∃ x l, q.take (question.length - i + 1) = x :: l := by
    refine List.exists_cons_of_ne_nil fun hnil => ?_
    have hzero := congrArg List.length hnil
    rw [List.length_take, List.length_nil] at hzero
    omega
  have hl : l.length = question.length - i := by
    have hcount := congrArg List.length hfront
    rw [List.length_take, List.length_cons] at hcount
    omega
  have hq : x :: l ++ q.drop (question.length - i + 1) = q := by
    rw [← hfront, List.take_append_drop]
  generalize q.drop (question.length - i + 1) = rest at hq
  subst hq
  refine ⟨BubbleSort.pass (gt first) x l ++ rest, ?_, ?_, ?_, ?_⟩
  · have hloop := @innerLoop_from _ _ _ first [] rest l x
    rw [hl] at hloop
    exact hloop
  · exact ((BubbleSort.pass_perm x l).append_right rest).trans h.perm
  · rw [← hl] at h ⊢
    exact BubbleSort.Settled.pass gt_iff (fun a b => le_total (first a) (first b))
      (fun _ _ _ => le_trans) h.settled
  · intro rate
    rw [List.filter_append, BubbleSort.filter_pass x l not_gt_of_eq, ← List.filter_append]
    exact h.stable rate

/-- After `m` iterations of the outer loop. -/
theorem sorting_of_loop (question : List α) (m : Nat) (hm : m < question.length) :
    ∃ q, (List.range' 1 m).foldlM (innerLoop first question.length) question = .ok q ∧
      Sorting first question q (question.length - m) := by
  induction m with
  | zero =>
      exact ⟨question, rfl, .refl question, BubbleSort.settled_length _ question, fun _ => rfl⟩
  | succ m ih =>
      obtain ⟨q, hloop, hsorting⟩ := ih (by omega)
      rw [show question.length - m = question.length - (1 + m) + 1 by omega] at hsorting
      obtain ⟨q', hinner, hsorting'⟩ := hsorting.innerLoop (by omega) (by omega)
      refine ⟨q', ?_, ?_⟩
      · rw [List.range'_concat, List.foldlM_append, hloop, Nat.one_mul]
        simp only [bind, Except.bind, List.foldlM_cons, List.foldlM_nil, hinner]
        rfl
      · rwa [Nat.add_comm 1 m] at hsorting'

/-- **`bubble_sort` is a stable sort.** For every list it ends without an error; it leaves the questions
of the list in non-decreasing order of their first components, and those with equal ones in their order. -/
theorem bubbleSort_stable (first : α → K) (question : List α) :
    ∃ sorted, bubbleSort first question = .ok sorted ∧ sorted.Perm question ∧
      sorted.Pairwise (fun a b => first a ≤ first b) ∧
      ∀ rate, sorted.filter (fun a => decide (first a = rate)) =
        question.filter fun a => decide (first a = rate) := by
  rcases Nat.eq_zero_or_pos question.length with hzero | hpos
  · obtain rfl := List.length_eq_zero_iff.mp hzero
    exact ⟨[], rfl, .refl [], .nil, fun _ => rfl⟩
  · obtain ⟨sorted, hloop, hperm, hsettled, hstable⟩ :=
      @sorting_of_loop _ _ _ first question (question.length - 1) (by omega)
    exact ⟨sorted, hloop, hperm, hsettled.sorted (by omega), hstable⟩

end SmallTrial.Pta

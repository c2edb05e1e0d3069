import Mathlib.Data.List.Count
import SmallTrial.TransitionRun

/-! Optimistic loops. An iteration of the loop of one process loads a shared pointer, works with the
value it has seen, and goes back to the head of the loop only if the pointer has another value by then
or is changed by the very step that ends the iteration. So an iteration fails only if the pointer
moves during it, and a call has at most one iteration more than there are moves. -/

namespace Transition

variable {σ ε : Type*} {P : Type*}

/-- Where a process stands with respect to a loop; inside, with the pointer it has loaded. -/
inductive LoopPos (P : Type*) where
  | outside
  | before
  | head
  | inside (p : P)

/-- What a step of the system that changes the pointer from `ptr` to `ptr'` does to the position of
the process. -/
inductive LoopStep (ptr ptr' : P) : LoopPos P → LoopPos P → Prop where
  | stay (x : LoopPos P) : LoopStep ptr ptr' x x
  | call : LoopStep ptr ptr' .outside .before
  | enter : LoopStep ptr ptr' .before .head
  | load : ptr' = ptr → LoopStep ptr ptr' .head (.inside ptr)
  | retry (p : P) : ptr ≠ p ∨ ptr' ≠ ptr → LoopStep ptr ptr' (.inside p) .head
  | leave (p : P) : LoopStep ptr ptr' (.inside p) .outside

namespace LoopPos

def isHead : LoopPos P → Bool
  | .head => true
  | _ => false

def isInside : LoopPos P → Bool
  | .inside _ => true
  | _ => false

def starts : LoopPos P → LoopPos P → Bool
  | .head, .inside _ => true
  | _, _ => false

def fails : LoopPos P → LoopPos P → Bool
  | .inside _, .head => true
  | _, _ => false

def calls : LoopPos P → LoopPos P → Bool
  | .outside, .before => true
  | _, _ => false

@[simp] theorem starts_self (x : LoopPos P) : x.starts x = false := by cases x <;> rfl

@[simp] theorem fails_self (x : LoopPos P) : x.fails x = false := by cases x <;> rfl

@[simp] theorem calls_self (x : LoopPos P) : x.calls x = false := by cases x <;> rfl

/-- Only a step to the position before the loop is a call. -/
theorem calls_eq_false (x : LoopPos P) {y : LoopPos P} (h : y ≠ .before) : x.calls y = false := by
  cases y with
  | before => exact absurd rfl h
  | outside | head | inside => cases x <;> rfl

/-- Only a step from the head of the loop starts an iteration. -/
theorem starts_eq_false {x : LoopPos P} (h : x.isHead = false) (y : LoopPos P) :
    x.starts y = false := by
  cases x with
  | head => cases h
  | outside | before | inside => cases y <;> rfl

theorem starts_iff {x y : LoopPos P} : x.starts y = true ↔ x = .head ∧ ∃ p, y = .inside p := by
  cases x <;> cases y <;> simp [starts]

theorem fails_iff {x y : LoopPos P} : x.fails y = true ↔ y = .head ∧ ∃ p, x = .inside p := by
  cases x <;> cases y <;> simp [fails]

end LoopPos

section Stages

variable (pos : σ → LoopPos P) (ptr : σ → P)

/-- An iteration starts with this step. -/
def Stage.starts (x : Stage σ ε) : Bool := (pos x.before).starts (pos x.after)

/-- An iteration ends with this step, without success. -/
def Stage.fails (x : Stage σ ε) : Bool := (pos x.before).fails (pos x.after)

/-- The call that contains the loop starts with this step. -/
def Stage.calls (x : Stage σ ε) : Bool := (pos x.before).calls (pos x.after)

/-- The step changes the pointer. -/
def Stage.moves [DecidableEq P] (x : Stage σ ε) : Bool := ptr x.after ≠ ptr x.before

/-- All stages are steps of a process with the loop, at position `pos`, on the pointer `ptr`. -/
def Looping (tr : List (Stage σ ε)) : Prop :=
  ∀ x ∈ tr, LoopStep (ptr x.before) (ptr x.after) (pos x.before) (pos x.after)

end Stages

variable {step : σ → ε → σ → Prop} {pos : σ → LoopPos P} {ptr : σ → P} {s t : σ}
  {tr : List (Stage σ ε)}

theorem Looping.mono {tr' : List (Stage σ ε)} (h : Looping pos ptr tr) (hsub : ∀ x ∈ tr', x ∈ tr) :
    Looping pos ptr tr' := fun x hx => h x (hsub x hx)

theorem Looping.last {x : Stage σ ε} (h : Looping pos ptr (tr ++ [x])) :
    LoopStep (ptr x.before) (ptr x.after) (pos x.before) (pos x.after) :=
  h x (List.mem_append_right tr (List.mem_singleton.mpr rfl))

theorem Looping.init {x : Stage σ ε} (h : Looping pos ptr (tr ++ [x])) : Looping pos ptr tr :=
  h.mono fun _ hy => List.mem_append_left [x] hy

/-- A step that ends inside and does not start an iteration begins inside. -/
theorem inside_of_not_starts {x : Stage σ ε} {p : P}
    (h : LoopStep (ptr x.before) (ptr x.after) (pos x.before) (pos x.after))
    (hx : x.starts pos = false) (ha : pos x.after = .inside p) : pos x.before = .inside p := by
  generalize hb : pos x.before = b at h
  rw [ha] at h
  cases h with
  | stay => rfl
  | load =>
      rw [Stage.starts, hb, ha] at hx
      cases hx

/-- In between two steps of one iteration the process stays inside the loop. -/
theorem Looping.inside (hloop : Looping pos ptr tr) (hrun : Run (Recorded step) s tr t)
    (hstart : ∀ x ∈ tr, x.starts pos = false) {p : P} (ht : pos t = .inside p) :
    pos s = .inside p ∧ ∀ x ∈ tr, pos x.after = .inside p := by
  induction hrun with
  | nil => exact ⟨ht, List.forall_mem_nil _⟩
  | @snoc tr x u v hrun hlast ih =>
      rw [← hlast.after] at ht
      have hbefore := inside_of_not_starts hloop.last (hstart x (by simp)) ht
      rw [hlast.before] at hbefore
      obtain ⟨hs, hall⟩ := ih hloop.init (fun x hx => hstart x (List.mem_append_left _ hx)) hbefore
      refine ⟨hs, fun y hy => ?_⟩
      rcases List.mem_append.mp hy with hy | hy
      · exact hall y hy
      · rw [List.mem_singleton.mp hy]
        exact ht

variable [DecidableEq P]

theorem moves_eq_false {x : Stage σ ε} : x.moves ptr = false ↔ ptr x.after = ptr x.before := by
  simp [Stage.moves]

/-- A pointer that no step moves is the same at the end. -/
theorem ptr_eq_of_not_moves (hrun : Run (Recorded step) s tr t)
    (hmoves : ∀ x ∈ tr, x.moves ptr = false) : ptr t = ptr s := by
  induction hrun with
  | nil => rfl
  | @snoc tr x u v hrun hlast ih =>
      have hx := moves_eq_false.mp (hmoves x (by simp))
      rw [hlast.after, hlast.before] at hx
      rw [hx, ih fun y hy => hmoves y (List.mem_append_left _ hy)]

/-- **Why an iteration fails.** Between the load of the pointer and the end of an iteration without
success, that end included, the pointer moves. -/
theorem Looping.moves_of_fails {x y : Stage σ ε} (hloop : Looping pos ptr (x :: (tr ++ [y])))
    (hrun : Run (Recorded step) s (x :: (tr ++ [y])) t) (hx : x.starts pos = true)
    (hmid : ∀ z ∈ tr, z.starts pos = false) (hy : y.fails pos = true) :
    (∃ z ∈ tr, z.moves ptr = true ∧ ∃ p, pos z.after = .inside p) ∨ y.moves ptr = true := by
  obtain ⟨u, hfirst, hrun⟩ := hrun.cons_inv
  obtain ⟨v, hrun, hlast⟩ := hrun.snoc_inv
  obtain ⟨hxb, p, hxa⟩ := LoopPos.starts_iff.mp hx
  obtain ⟨hya, q, hyb⟩ := LoopPos.fails_iff.mp hy
  have hload := hloop x (List.mem_cons_self ..)
  have hend := hloop y (by simp)
  rw [hxb, hxa] at hload
  rw [hyb, hya] at hend
  rw [hlast.before] at hyb
  have hmidloop : Looping pos ptr tr := hloop.mono fun z hz => by simp [hz]
  obtain ⟨hu, hall⟩ := hmidloop.inside hrun hmid hyb
  by_cases hmoves : ∀ z ∈ tr, z.moves ptr = false
  · -- the pointer is still the one that was loaded, so the end itself moves it
    rw [← hfirst.after, hxa] at hu
    cases hu
    cases hload with
    | load hkeep =>
      cases hend with
      | retry _ hdiff =>
          rcases hdiff with hdiff | hdiff
          · rw [hlast.before, ptr_eq_of_not_moves hrun hmoves, ← hfirst.after] at hdiff
            exact absurd hkeep hdiff
          · exact .inr (by simpa [Stage.moves] using hdiff)
  · obtain ⟨z, hz⟩ := not_forall.mp hmoves
    obtain ⟨hz, hzmoves⟩ := Classical.not_imp.mp hz
    exact .inl ⟨z, hz, by simpa using hzmoves, q, hall z hz⟩

/-- The same for an iteration anywhere in a run. -/
theorem Looping.moves_in_iteration {x y : Stage σ ε} {tr₀ mid rest : List (Stage σ ε)}
    (hloop : Looping pos ptr tr) (hrun : Run (Recorded step) s tr t)
    (htr : tr = tr₀ ++ x :: (mid ++ y :: rest)) (hx : x.starts pos = true)
    (hmid : ∀ z ∈ mid, z.starts pos = false) (hy : y.fails pos = true) :
    (∃ z ∈ mid, z.moves ptr = true ∧ ∃ p, pos z.after = .inside p) ∨ y.moves ptr = true := by
  have hsplit : tr₀ ++ x :: (mid ++ y :: rest) = tr₀ ++ (x :: (mid ++ [y]) ++ rest) := by simp
  rw [htr, hsplit] at hrun hloop
  obtain ⟨u, v, hwindow⟩ := hrun.window
  have hwindowLoop : Looping pos ptr (x :: (mid ++ [y])) :=
    hloop.mono fun z hz => List.mem_append_right _ (List.mem_append_left _ hz)
  exact hwindowLoop.moves_of_fails hwindow hx hmid hy

/-! ### Counting -/

/-- The number of iterations that have started in a call is at most that of the moves at the head of
the loop, and inside it once the pointer has moved away from the one that was loaded. -/
structure Counted (x : LoopPos P) (ptr : P) (iterations moves : Nat) : Prop where
  le : iterations ≤ moves + 1
  before : x = .before → iterations = 0
  head : x = .head → iterations ≤ moves
  inside : ∀ p, x = .inside p → ptr ≠ p → iterations ≤ moves

theorem Counted.next {x : Stage σ ε} {iterations moves : Nat}
    (h : Counted (pos x.before) (ptr x.before) iterations moves)
    (hstep : LoopStep (ptr x.before) (ptr x.after) (pos x.before) (pos x.after))
    (hcall : x.calls pos = false) :
    Counted (pos x.after) (ptr x.after) (iterations + if x.starts pos then 1 else 0)
      (moves + if x.moves ptr then 1 else 0) := by
  have hle := h.le
  have hmoves : ptr x.after = ptr x.before ∨ x.moves ptr = true := by
    rcases Bool.eq_false_or_eq_true (x.moves ptr) with hm | hm
    · exact .inr hm
    · exact .inl (moves_eq_false.mp hm)
  unfold Stage.calls at hcall
  unfold Stage.starts
  generalize pos x.before = b at h hstep hcall ⊢
  generalize pos x.after = a at hstep hcall ⊢
  cases hstep with
  | stay =>
      rw [LoopPos.starts_self, if_neg Bool.false_ne_true]
      refine ⟨by omega, h.before, fun hb => Nat.le_add_right_of_le (h.head hb), fun p hb hp => ?_⟩
      rcases hmoves with hkeep | hm
      · exact Nat.le_add_right_of_le (h.inside p hb (hkeep ▸ hp))
      · rw [if_pos hm]
        exact hle
  | call => cases hcall
  | enter =>
      have hzero := h.before rfl
      refine ⟨?_, ?_, fun _ => ?_, ?_⟩ <;> simp [LoopPos.starts, hzero]
  | load hkeep =>
      have hhead := h.head rfl
      refine ⟨?_, by rintro ⟨⟩, by rintro ⟨⟩, fun p hp hne => ?_⟩
      · rw [LoopPos.starts, if_pos rfl]
        omega
      · cases hp
        exact absurd hkeep hne
  | retry p hdiff =>
      rw [LoopPos.starts_eq_false (x := .inside p) rfl, if_neg Bool.false_ne_true]
      refine ⟨by omega, by rintro ⟨⟩, fun _ => ?_, by rintro _ ⟨⟩⟩
      rcases hdiff with hdiff | hdiff
      · exact Nat.le_add_right_of_le (h.inside p rfl hdiff)
      · rw [if_pos (hmoves.resolve_left hdiff)]
        exact hle
  | leave p =>
      rw [LoopPos.starts_eq_false (x := .inside p) rfl, if_neg Bool.false_ne_true]
      exact ⟨by omega, by rintro ⟨⟩, by rintro ⟨⟩, by rintro _ ⟨⟩⟩

/-- **How often a call repeats.** A call makes at most one iteration more than the pointer moves. -/
theorem Looping.starts_le_moves (hloop : Looping pos ptr tr) (hrun : Run (Recorded step) s tr t)
    (hcall : ∀ x ∈ tr, x.calls pos = false) :
    tr.countP (Stage.starts pos) ≤ tr.countP (Stage.moves ptr) + 1 := by
  suffices h : Counted (pos t) (ptr t) (tr.countP (Stage.starts pos)) (tr.countP (Stage.moves ptr)) from
    h.le
  induction hrun with
  | nil => exact ⟨Nat.zero_le _, fun _ => rfl, fun _ => Nat.zero_le _, fun _ _ _ => Nat.zero_le _⟩
  | @snoc tr x u v _ hlast ih =>
      have hu := ih hloop.init fun y hy => hcall y (List.mem_append_left _ hy)
      rw [← hlast.before] at hu
      rw [← hlast.after, List.countP_append, List.countP_append, List.countP_singleton,
        List.countP_singleton]
      exact hu.next hloop.last (hcall x (by simp))

end Transition

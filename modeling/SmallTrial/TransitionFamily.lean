import Mathlib.Algebra.BigOperators.Fin
import Mathlib.Algebra.Order.BigOperators.Group.Finset
import Mathlib.Data.Fintype.BigOperators
import SmallTrial.TransitionRun

/-! Families of processes: each process has a position, and a step moves one process. What a step does
to a quantity that some process owns, and to a sum over all processes. -/

namespace Transition

variable {ι : Type*} [DecidableEq ι] {α β : Type*}

/-! ### Owners -/

/-- A partial function of the threads' positions stays injective when one thread moves to a position
whose image no other thread has. -/
theorem update_inj {pc : ι → α} {g : α → Option β} {t : ι} {x : α}
    (hinj : ∀ t₁ t₂ q, g (pc t₁) = some q → g (pc t₂) = some q → t₁ = t₂)
    (hx : ∀ t' q, t' ≠ t → g x = some q → g (pc t') ≠ some q) :
    ∀ t₁ t₂ q, g (Function.update pc t x t₁) = some q → g (Function.update pc t x t₂) = some q →
      t₁ = t₂ := by
  intro t₁ t₂ q h₁ h₂
  by_cases e₁ : t₁ = t
  · by_cases e₂ : t₂ = t
    · rw [e₁, e₂]
    · rw [e₁, Function.update_self] at h₁
      rw [Function.update_of_ne e₂] at h₂
      exact absurd h₂ (hx t₂ q e₂ h₁)
  · rw [Function.update_of_ne e₁] at h₁
    by_cases e₂ : t₂ = t
    · rw [e₂, Function.update_self] at h₂
      exact absurd h₁ (hx t₁ q e₁ h₂)
    · rw [Function.update_of_ne e₂] at h₂
      exact hinj _ _ _ h₁ h₂

/-- The image of a thread that keeps it, or gives it up, is not the image of another thread. -/
theorem update_inj_of_eq {pc : ι → α} {g : α → Option β} {t : ι} {x : α}
    (hinj : ∀ t₁ t₂ q, g (pc t₁) = some q → g (pc t₂) = some q → t₁ = t₂)
    (hx : g x = none ∨ g x = g (pc t)) :
    ∀ t₁ t₂ q, g (Function.update pc t x t₁) = some q → g (Function.update pc t x t₂) = some q →
      t₁ = t₂ := by
  refine update_inj hinj fun t' q hne hxq hq => ?_
  rcases hx with hnone | hsame
  · rw [hnone] at hxq
    cases hxq
  · exact hne (hinj _ _ _ hq (hsame ▸ hxq))

/-- An image some thread has is still there after a move that keeps the image of its thread. -/
theorem update_exists {pc : ι → α} {g : α → Option β} {t : ι} {x : α} {q : β} (hx : g x = g (pc t))
    (h : ∃ t', g (pc t') = some q) : ∃ t', g (Function.update pc t x t') = some q := by
  obtain ⟨t', ht'⟩ := h
  refine ⟨t', ?_⟩
  by_cases he : t' = t
  · rw [he, Function.update_self, hx, ← he, ht']
  · rw [Function.update_of_ne he, ht']

/-- An image other than that of the moving thread is still there after the move. -/
theorem update_exists_of_ne {pc : ι → α} {g : α → Option β} {t : ι} {x : α} {q : β}
    (ht : g (pc t) ≠ some q) (h : ∃ t', g (pc t') = some q) :
    ∃ t', g (Function.update pc t x t') = some q := by
  obtain ⟨t', ht'⟩ := h
  refine ⟨t', ?_⟩
  rw [Function.update_of_ne, ht']
  rintro rfl
  exact ht ht'

/-! ### Sums -/

/-- A step changes a sum over all processes by what it changes for the process that moves. -/
theorem sum_update [Fintype ι] (g : α → Nat) (pc : ι → α) (t : ι) (x : α) :
    ∑ t', g (Function.update pc t x t') + g (pc t) = ∑ t', g (pc t') + g x := by
  rw [Fintype.sum_eq_add_sum_compl t, Fintype.sum_eq_add_sum_compl t (fun t' => g (pc t')),
    Function.update_self]
  have hrest : ∑ t' ∈ {t}ᶜ, g (Function.update pc t x t') = ∑ t' ∈ {t}ᶜ, g (pc t') := by
    refine Finset.sum_congr rfl fun t' ht' => ?_
    rw [Function.update_of_ne (Finset.mem_compl.mp ht' ∘ Finset.mem_singleton.mpr)]
  rw [hrest]
  omega

omit [DecidableEq ι] in
/-- A sum over all processes is at least the share of one of them. -/
theorem le_sum [Fintype ι] (g : α → Nat) (pc : ι → α) (t : ι) : g (pc t) ≤ ∑ t', g (pc t') :=
  Finset.single_le_sum (f := fun t => g (pc t)) (fun _ _ => Nat.zero_le _) (Finset.mem_univ t)

omit [DecidableEq ι] in
/-- A sum of shares of at most 1 stays below the number of processes if one of them has none. -/
theorem sum_lt_card [Fintype ι] {g : α → Nat} (hle : ∀ x, g x ≤ 1) (pc : ι → α) {t : ι}
    (ht : g (pc t) = 0) : ∑ t', g (pc t') < Fintype.card ι := by
  calc ∑ t', g (pc t') < ∑ _t' : ι, 1 :=
        Finset.sum_lt_sum (fun t' _ => hle (pc t')) ⟨t, Finset.mem_univ t, ht ▸ Nat.one_pos⟩
    _ = Fintype.card ι := by rw [Finset.sum_const, Finset.card_univ, smul_eq_mul, Nat.mul_one]

omit [DecidableEq ι] in
theorem sum_eq_card [Fintype ι] {g : α → Nat} {pc : ι → α} (h : ∀ t, g (pc t) = 1) :
    ∑ t, g (pc t) = Fintype.card ι := by
  calc ∑ t, g (pc t) = ∑ _t : ι, 1 := Finset.sum_congr rfl fun t _ => h t
    _ = Fintype.card ι := by rw [Finset.sum_const, Finset.card_univ, smul_eq_mul, Nat.mul_one]

/-- The sum of a weight over the events of a run. -/
def total {ε : Type*} (f : ε → Nat) (tr : List ε) : Nat := (tr.map f).sum

theorem total_snoc {ε : Type*} (f : ε → Nat) (tr : List ε) (e : ε) :
    total f (tr ++ [e]) = total f tr + f e := by
  rw [total, List.map_append, List.sum_append, List.map_singleton, List.sum_singleton, total]

theorem total_add {ε : Type*} (f g : ε → Nat) (tr : List ε) :
    total (fun e => f e + g e) tr = total f tr + total g tr := List.sum_map_add

theorem total_eq_zero {ε : Type*} {f : ε → Nat} {tr : List ε} (h : ∀ e ∈ tr, f e = 0) :
    total f tr = 0 := by
  rw [total, List.sum_eq_zero_iff]
  intro n hn
  obtain ⟨e, he, rfl⟩ := List.mem_map.mp hn
  exact h e he

/-- **Double-entry bookkeeping.** If every step changes the share of the process that moves by what
its event credits and debits, then all that was credited was debited or is some process's share. -/
theorem Run.balance {σ ε : Type*} [Fintype ι] {step : σ → ε → σ → Prop} (pc : σ → ι → α)
    (credit debit : ε → Nat) (share : α → Nat)
    (hstep : ∀ s e s', step s e s' → (pc s' = pc s ∧ credit e = debit e) ∨
      ∃ t x, pc s' = Function.update (pc s) t x ∧ credit e + share (pc s t) = debit e + share x)
    {s s' : σ} {tr : List ε} (hinit : ∀ t, share (pc s t) = 0) (h : Run step s tr s') :
    total credit tr = total debit tr + ∑ t, share (pc s' t) := by
  refine h.invariant (fun tr s => total credit tr = total debit tr + ∑ t, share (pc s t)) ?_ ?_
  · rw [Finset.sum_eq_zero fun t _ => hinit t]
    rfl
  · intro tr a e b _ hI hnext
    rw [total_snoc, total_snoc, hI]
    rcases hstep a e b hnext with ⟨hpc, heq⟩ | ⟨t, x, hpc, heq⟩
    · rw [hpc, heq]
      omega
    · have hsum := sum_update share (pc a) t x
      rw [hpc]
      omega

end Transition

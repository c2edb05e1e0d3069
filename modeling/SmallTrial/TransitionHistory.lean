import Mathlib.Data.Set.Basic
import SmallTrial.TransitionRun

/-! The histories of a system: what its runs show of their events. A forward simulation carries the
histories of one system to another; so does a relation that answers each step by a run. -/

namespace Transition

variable {σ ε ω σ' ε' : Type*}

/-- What the runs from a state show. -/
def histories (step : σ → ε → σ → Prop) (obs : ε → Option ω) (s : σ) : Set (List ω) :=
  {h | ∃ tr t, Run step s tr t ∧ tr.filterMap obs = h}

/-- Each step of `stepA` is answered by a run of `step` that shows the same. -/
def RunSimulation (stepA : σ' → ε' → σ' → Prop) (obsA : ε' → Option ω) (step : σ → ε → σ → Prop)
    (obs : ε → Option ω) (R : σ' → σ → Prop) : Prop :=
  ∀ ⦃a e a' c⦄, R a c → stepA a e a' →
    ∃ tr c', R a' c' ∧ Run step c tr c' ∧ tr.filterMap obs = (obsA e).toList

variable {step : σ → ε → σ → Prop} {obs : ε → Option ω} {stepA : σ' → ε' → σ' → Prop}
  {obsA : ε' → Option ω} {c : σ} {a a' : σ'} {trA : List ε'}

theorem filterMap_snoc {α β : Type*} (f : α → Option β) (l : List α) (x : α) :
    (l ++ [x]).filterMap f = l.filterMap f ++ (f x).toList := by
  rw [List.filterMap_append]
  cases h : f x with
  | none => rw [List.filterMap_cons_none h, List.filterMap_nil, Option.toList_none]
  | some y => rw [List.filterMap_cons_some h, List.filterMap_nil, Option.toList_some]

namespace RunSimulation

variable {R : σ' → σ → Prop}

theorem run (hsim : RunSimulation stepA obsA step obs R) (hR : R a c) (h : Run stepA a trA a') :
    ∃ tr c', R a' c' ∧ Run step c tr c' ∧ tr.filterMap obs = trA.filterMap obsA := by
  induction h with
  | nil => exact ⟨[], c, hR, .nil, rfl⟩
  | @snoc trA e b b' _ hstep ih =>
      obtain ⟨tr, d, hRd, hrun, hobs⟩ := ih
      obtain ⟨tr', d', hRd', hrun', hobs'⟩ := hsim hRd hstep
      refine ⟨tr ++ tr', d', hRd', hrun.append hrun', ?_⟩
      rw [List.filterMap_append, hobs, hobs', filterMap_snoc]

theorem histories_subset (hsim : RunSimulation stepA obsA step obs R) (hR : R a c) :
    histories stepA obsA a ⊆ histories step obs c := by
  rintro h ⟨trA, a', hrunA, rfl⟩
  obtain ⟨tr, c', -, hrun, hobs⟩ := hsim.run hR hrunA
  exact ⟨tr, c', hrun, hobs⟩

end RunSimulation

theorem ForwardSimulation.histories_subset {R : σ → σ' → Prop}
    (hsim : ForwardSimulation step obs stepA obsA R) (hR : R c a) :
    histories step obs c ⊆ histories stepA obsA a := by
  rintro h ⟨tr, c', hrun, rfl⟩
  obtain ⟨a', trA, -, hrunA, hobs⟩ := hsim.run hR hrun
  exact ⟨trA, a', hrunA, hobs⟩

end Transition

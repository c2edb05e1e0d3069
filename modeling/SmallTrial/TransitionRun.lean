import Mathlib.Data.List.Basic
import Mathlib.Logic.Function.Basic

/-! Finite runs of a labelled step relation, with the events they report: invariants along a run,
runs whose steps all meet a condition, decreasing measures, forward simulation between two
relations, and replaying the choices of an executable step function. -/

namespace Transition

universe u v w

variable {σ : Type u} {ε : Type v} {σ' : Type*} {ε' : Type*} {ω : Type*}

/-- A run from `s` that reports the events `tr`, oldest first. -/
inductive Run (step : σ → ε → σ → Prop) (s : σ) : List ε → σ → Prop where
  | nil : Run step s [] s
  | snoc {tr : List ε} {e : ε} {t t' : σ} :
      Run step s tr t → step t e t' → Run step s (tr ++ [e]) t'

/-- The states some run from `s` ends in. -/
def Reachable (step : σ → ε → σ → Prop) (s t : σ) : Prop := ∃ tr, Run step s tr t

/-- The steps of `step` that meet a condition on the state before them and their event. -/
def Restrict (step : σ → ε → σ → Prop) (P : σ → ε → Prop) (s : σ) (e : ε) (t : σ) : Prop :=
  step s e t ∧ P s e

namespace Run

variable {step : σ → ε → σ → Prop} {s t u : σ} {tr tr' : List ε}

theorem single {e : ε} (h : step s e t) : Run step s [e] t := Run.nil.snoc h

theorem nil_inv (h : Run step s [] t) : s = t := by
  generalize hnil : ([] : List ε) = tr at h
  cases h with
  | nil => rfl
  | snoc => simp at hnil

theorem snoc_inv {e : ε} (h : Run step s (tr ++ [e]) u) : ∃ t, Run step s tr t ∧ step t e u := by
  generalize hsnoc : tr ++ [e] = tr' at h
  cases h with
  | nil => simp at hsnoc
  | @snoc _ _ t _ hrun hlast =>
      obtain ⟨rfl, he⟩ := List.append_inj' hsnoc rfl
      cases he
      exact ⟨t, hrun, hlast⟩

theorem append (h : Run step s tr t) (h' : Run step t tr' u) : Run step s (tr ++ tr') u := by
  induction h' with
  | nil => rwa [List.append_nil]
  | snoc _ hstep ih =>
      rw [← List.append_assoc]
      exact ih.snoc hstep

theorem cons {e : ε} (h : step s e t) (h' : Run step t tr u) : Run step s (e :: tr) u :=
  (single h).append h'

/-- A run passes a state between two parts of its events. -/
theorem split {tr₁ tr₂ : List ε} (h : Run step s (tr₁ ++ tr₂) u) :
    ∃ t, Run step s tr₁ t ∧ Run step t tr₂ u := by
  generalize htr : tr₁ ++ tr₂ = tr at h
  induction h generalizing tr₂ with
  | nil =>
      obtain ⟨rfl, rfl⟩ := List.append_eq_nil_iff.mp htr
      exact ⟨s, .nil, .nil⟩
  | @snoc tr e t t' hrun hlast ih =>
      rcases List.eq_nil_or_concat tr₂ with rfl | ⟨init, e', rfl⟩
      · rw [List.append_nil] at htr
        exact ⟨t', htr ▸ hrun.snoc hlast, .nil⟩
      · rw [List.concat_eq_append, ← List.append_assoc] at htr
        obtain ⟨rfl, he⟩ := List.append_inj' htr rfl
        cases he
        obtain ⟨v, h₁, h₂⟩ := ih rfl
        refine ⟨v, h₁, ?_⟩
        rw [List.concat_eq_append]
        exact h₂.snoc hlast

/-- A part of a run is a run. -/
theorem window {tr₁ mid tr₂ : List ε} (h : Run step s (tr₁ ++ (mid ++ tr₂)) u) :
    ∃ t t', Run step t mid t' := by
  obtain ⟨t, -, hrest⟩ := h.split
  obtain ⟨t', hmid, -⟩ := hrest.split
  exact ⟨t, t', hmid⟩

theorem cons_inv {e : ε} (h : Run step s (e :: tr) u) : ∃ t, step s e t ∧ Run step t tr u := by
  have hcons : Run step s ([e] ++ tr) u := h
  obtain ⟨t, hhead, htail⟩ := hcons.split
  have hsnoc : Run step s ([] ++ [e]) t := hhead
  obtain ⟨t', hnil, hstep⟩ := hsnoc.snoc_inv
  rw [hnil.nil_inv]
  exact ⟨t, hstep, htail⟩

/-- Where each state has at most one step, every run is the beginning of one that ends in a state
without steps. -/
theorem extends_to_final (hdet : ∀ a e b e' b', step a e b → step a e' b' → e = e' ∧ b = b')
    (hfinal : ∀ e b, ¬ step t e b) (h : Run step s tr t) (h' : Run step s tr' u) :
    ∃ rest, tr = tr' ++ rest ∧ Run step u rest t := by
  induction h' with
  | nil => exact ⟨tr, rfl, h⟩
  | @snoc tr' e u u' _ hstep ih =>
      obtain ⟨rest, rfl, hrest⟩ := ih
      cases rest with
      | nil =>
          rw [hrest.nil_inv] at hstep
          exact absurd hstep (hfinal e u')
      | cons e' rest =>
          obtain ⟨v, hstep', htail⟩ := hrest.cons_inv
          obtain ⟨rfl, rfl⟩ := hdet u e u' e' v hstep hstep'
          exact ⟨rest, List.append_cons tr' e rest, htail⟩

theorem reachable (h : Run step s tr t) : Reachable step s t := ⟨tr, h⟩

theorem mono {step' : σ → ε → σ → Prop} (hle : ∀ a e b, step a e b → step' a e b)
    (h : Run step s tr t) : Run step' s tr t := by
  induction h with
  | nil => exact .nil
  | snoc _ hstep ih => exact ih.snoc (hle _ _ _ hstep)

theorem of_restrict {P : σ → ε → Prop} (h : Run (Restrict step P) s tr t) : Run step s tr t :=
  h.mono fun _ _ _ hstep => hstep.1

/-- A predicate on the events so far and the state that holds at the start and is kept by every
step taken from a reached state holds at the end of every run. -/
theorem invariant (I : List ε → σ → Prop) (hinit : I [] s)
    (hstep : ∀ tr a e b, Run step s tr a → I tr a → step a e b → I (tr ++ [e]) b)
    (h : Run step s tr t) : I tr t := by
  induction h with
  | nil => exact hinit
  | snoc hrun hnext ih => exact hstep _ _ _ _ hrun ih hnext

/-- The case of `invariant` where the predicate does not look at the events. -/
theorem stateInvariant (I : σ → Prop) (hinit : I s) (hstep : ∀ a e b, I a → step a e b → I b)
    (h : Run step s tr t) : I t :=
  h.invariant (fun _ a => I a) hinit fun _ _ _ _ _ hI hnext => hstep _ _ _ hI hnext

/-- A run takes its steps from states that satisfy any invariant of it. -/
theorem restrict_of_invariant (I : σ → Prop) (hinit : I s) (hkeep : ∀ a e b, I a → step a e b → I b)
    (h : Run step s tr t) : Run (Restrict step fun a _ => I a) s tr t := by
  induction h with
  | nil => exact .nil
  | snoc hrun hnext ih => exact ih.snoc ⟨hnext, hrun.stateInvariant I hinit hkeep⟩

/-- Every event of a run was reported by a step of it, from a state that satisfies any invariant
of the run. -/
theorem forall_mem {P : ε → Prop}
    (hP : ∀ tr a e b, Run step s tr a → step a e b → P e) (h : Run step s tr t) :
    ∀ e ∈ tr, P e := by
  induction h with
  | nil => simp
  | snoc hrun hnext ih =>
      intro e he
      rcases List.mem_append.mp he with hmem | hmem
      · exact ih e hmem
      · rw [List.mem_singleton.mp hmem]
        exact hP _ _ _ _ hrun hnext

/-- A measure that every step decreases bounds the length of a run. -/
theorem length_add_le (μ : σ → Nat) (I : σ → Prop) (hinit : I s)
    (hkeep : ∀ a e b, I a → step a e b → I b) (hdec : ∀ a e b, I a → step a e b → μ b < μ a)
    (h : Run step s tr t) : tr.length + μ t ≤ μ s := by
  induction h with
  | nil => simp
  | snoc hrun hnext ih =>
      have hlt := hdec _ _ _ (hrun.stateInvariant I hinit hkeep) hnext
      rw [List.length_append, List.length_singleton]
      omega

/-- Where a measure decreases and there is a step until the end, some run comes to the end. -/
theorem exists_final (μ : σ → Nat) (I done : σ → Prop) (hkeep : ∀ a e b, I a → step a e b → I b)
    (hdec : ∀ a e b, I a → step a e b → μ b < μ a) (hgoes : ∀ a, I a → ¬ done a → ∃ e b, step a e b)
    (hinit : I s) : ∃ tr t, Run step s tr t ∧ done t := by
  induction hn : μ s using Nat.strongRecOn generalizing s with
  | ind n ih =>
      by_cases hdone : done s
      · exact ⟨[], s, .nil, hdone⟩
      · obtain ⟨e, b, hstep⟩ := hgoes s hinit hdone
        obtain ⟨tr, t, hrun, ht⟩ := ih (μ b) (hn ▸ hdec s e b hinit hstep) (hkeep s e b hinit hstep) rfl
        exact ⟨e :: tr, t, hrun.cons hstep, ht⟩

end Run

theorem Reachable.trans {step : σ → ε → σ → Prop} {s t u : σ} (h : Reachable step s t)
    (h' : Reachable step t u) : Reachable step s u := by
  obtain ⟨tr, h⟩ := h
  obtain ⟨tr', h'⟩ := h'
  exact ⟨tr ++ tr', h.append h'⟩

theorem Reachable.single {step : σ → ε → σ → Prop} {s t : σ} {e : ε} (h : step s e t) :
    Reachable step s t := (Run.single h).reachable

/-- One step of the abstract relation with the observation `o`, or none at all if nothing is
observed. -/
def Answer (stepA : σ' → ε' → σ' → Prop) (obsA : ε' → Option ω) (a : σ') (o : Option ω) (a' : σ') :
    Prop :=
  (o = none ∧ a' = a) ∨ ∃ e, stepA a e a' ∧ obsA e = o

/-- `R` is a forward simulation of `step` by `stepA`: each step is answered by at most one abstract
step with the same observation. -/
def ForwardSimulation (step : σ → ε → σ → Prop) (obs : ε → Option ω)
    (stepA : σ' → ε' → σ' → Prop) (obsA : ε' → Option ω) (R : σ → σ' → Prop) : Prop :=
  ∀ ⦃c e c' a⦄, R c a → step c e c' → ∃ a', R c' a' ∧ Answer stepA obsA a (obs e) a'

/-- **Trace inclusion.** A forward simulation answers every run with an abstract run that has the
same observations in the same order. -/
theorem ForwardSimulation.run {step : σ → ε → σ → Prop} {obs : ε → Option ω}
    {stepA : σ' → ε' → σ' → Prop} {obsA : ε' → Option ω} {R : σ → σ' → Prop}
    (hsim : ForwardSimulation step obs stepA obsA R) {c c' : σ} {a : σ'} {tr : List ε}
    (hR : R c a) (h : Run step c tr c') :
    ∃ a' trA, R c' a' ∧ Run stepA a trA a' ∧ trA.filterMap obsA = tr.filterMap obs := by
  induction h with
  | nil => exact ⟨a, [], hR, .nil, rfl⟩
  | @snoc tr e t t' _ hnext ih =>
      obtain ⟨b, trA, hRb, hrunA, hobs⟩ := ih
      obtain ⟨b', hRb', ⟨hnone, rfl⟩ | ⟨eA, hstepA, hobsA⟩⟩ := hsim hRb hnext
      · refine ⟨b', trA, hRb', hrunA, ?_⟩
        simp [hobs, hnone]
      · refine ⟨b', trA ++ [eA], hRb', hrunA.snoc hstepA, ?_⟩
        rw [List.filterMap_append, List.filterMap_append, hobs]
        simp [List.filterMap_cons, hobsA]

/-! ### Recorded runs -/

/-- A step that was taken, with the states before and after it. -/
structure Stage (σ : Type u) (ε : Type v) where
  before : σ
  event : ε
  after : σ

/-- The steps of `step`, each of which reports itself. -/
structure Recorded (step : σ → ε → σ → Prop) (s : σ) (x : Stage σ ε) (t : σ) : Prop where
  before : x.before = s
  step : step s x.event t
  after : x.after = t

theorem Run.record {step : σ → ε → σ → Prop} {s t : σ} {tr : List ε} (h : Run step s tr t) :
    ∃ tr', tr'.map Stage.event = tr ∧ Run (Recorded step) s tr' t := by
  induction h with
  | nil => exact ⟨[], rfl, .nil⟩
  | @snoc tr e t t' _ hstep ih =>
      obtain ⟨tr', rfl, hrun⟩ := ih
      refine ⟨tr' ++ [⟨t, e, t'⟩], ?_, hrun.snoc ⟨rfl, hstep, rfl⟩⟩
      rw [List.map_append, List.map_singleton]

theorem Run.events {step : σ → ε → σ → Prop} {s t : σ} {tr : List (Stage σ ε)}
    (h : Run (Recorded step) s tr t) : Run step s (tr.map Stage.event) t := by
  induction h with
  | nil => exact .nil
  | @snoc tr x u v _ hlast ih =>
      rw [List.map_append, List.map_singleton]
      exact ih.snoc hlast.step

/-- Every stage of a recorded run is a step from a state that satisfies any invariant of the run. -/
theorem Run.forall_stage {step : σ → ε → σ → Prop} {s t : σ} {tr : List (Stage σ ε)} (I : σ → Prop)
    (hinit : I s) (hstep : ∀ a e b, I a → step a e b → I b) (h : Run (Recorded step) s tr t) :
    I t ∧ ∀ x ∈ tr, I x.before ∧ step x.before x.event x.after := by
  induction h with
  | nil => exact ⟨hinit, List.forall_mem_nil _⟩
  | @snoc tr x u v _ hlast ih =>
      obtain ⟨hu, hall⟩ := ih
      refine ⟨hstep u x.event v hu hlast.step, fun y hy => ?_⟩
      rcases List.mem_append.mp hy with hy | hy
      · exact hall y hy
      · rw [List.mem_singleton.mp hy, hlast.before, hlast.after]
        exact ⟨hu, hlast.step⟩

/-- Runs an executable step function on a list of choices. -/
def replay {κ : Type*} (next : σ → κ → Option (σ × ε)) : σ → List κ → Option (σ × List ε)
  | s, [] => some (s, [])
  | s, k :: ks =>
      match next s k with
      | none => none
      | some (t, e) => (replay next t ks).map fun r => (r.1, e :: r.2)

theorem Run.of_replay {κ : Type*} {next : σ → κ → Option (σ × ε)} {step : σ → ε → σ → Prop}
    (hnext : ∀ s k t e, next s k = some (t, e) → step s e t) {ks : List κ} :
    ∀ {s : σ} {r : σ × List ε}, replay next s ks = some r → Run step s r.2 r.1 := by
  induction ks with
  | nil =>
      intro s r h
      cases h
      exact .nil
  | cons k ks ih =>
      intro s r h
      rw [replay] at h
      split at h
      · cases h
      · rename_i t e hk
        obtain ⟨r', hr', rfl⟩ := Option.map_eq_some_iff.mp h
        exact Run.cons (hnext _ _ _ _ hk) (ih hr')

/-- The choices whose steps meet a condition. -/
def checked {κ : Type*} (next : σ → κ → Option (σ × ε)) (P : σ → ε → Prop) [∀ s e, Decidable (P s e)]
    (s : σ) (k : κ) : Option (σ × ε) := (next s k).filter fun r => P s r.2

theorem Run.of_replay_checked {κ : Type*} {next : σ → κ → Option (σ × ε)} {step : σ → ε → σ → Prop}
    (hnext : ∀ s k t e, next s k = some (t, e) → step s e t) {P : σ → ε → Prop} [∀ s e, Decidable (P s e)]
    {ks : List κ} {s : σ} {r : σ × List ε} (h : replay (checked next P) s ks = some r) :
    Run (Restrict step P) s r.2 r.1 := by
  refine Run.of_replay (fun s k t e hk => ?_) h
  obtain ⟨hstep, hP⟩ := Option.filter_eq_some_iff.mp hk
  exact ⟨hnext s k t e hstep, of_decide_eq_true hP⟩

end Transition

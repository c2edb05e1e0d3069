import SmallTrial.TransitionRun

/-! The atomic object of a sequential specification: a call is invoked, takes effect in one atomic
commit, and responds. A history of invocations and responses is linearizable if it is the history
of a run of the atomic object, the commits being the linearization points. -/

namespace Transition

variable {ι Op Res Q : Type*}

/-- Where a thread's call on an atomic object stands. -/
inductive Call (Op Res : Type*) where
  | idle
  | pending (op : Op)
  | done (res : Res)

/-- The value of an atomic object and the calls on it. -/
structure Object (ι Op Res Q : Type*) where
  value : Q
  call : ι → Call Op Res

def Object.new (q : Q) : Object ι Op Res Q := ⟨q, fun _ => .idle⟩

inductive ObjectEvent (Op Res : Type*) where
  | invoke (op : Op)
  | commit (op : Op) (res : Res)
  | respond (res : Res)

namespace Object

variable [DecidableEq ι]

/-- The object with another state of thread `t`'s call. -/
def setCall (o : Object ι Op Res Q) (t : ι) (c : Call Op Res) : Object ι Op Res Q :=
  { o with call := Function.update o.call t c }

@[simp] theorem setCall_value (o : Object ι Op Res Q) (t : ι) (c : Call Op Res) :
    (o.setCall t c).value = o.value := rfl

@[simp] theorem setCall_self (o : Object ι Op Res Q) (t : ι) (c : Call Op Res) :
    (o.setCall t c).call t = c := Function.update_self ..

@[simp] theorem setCall_call (o : Object ι Op Res Q) (t : ι) : o.setCall t (o.call t) = o := by
  rw [setCall, Function.update_eq_self]

theorem setCall_of_ne (o : Object ι Op Res Q) {t t' : ι} (c : Call Op Res) (h : t' ≠ t) :
    (o.setCall t c).call t' = o.call t' := Function.update_of_ne h ..

/-- The steps of the atomic object with the sequential specification `apply`. -/
inductive Step (apply : Op → Q → Res × Q) :
    Object ι Op Res Q → ι × ObjectEvent Op Res → Object ι Op Res Q → Prop where
  | invoke (o : Object ι Op Res Q) (t : ι) (op : Op) :
      o.call t = .idle → Step apply o (t, .invoke op) (o.setCall t (.pending op))
  | commit (o : Object ι Op Res Q) (t : ι) (op : Op) :
      o.call t = .pending op →
      Step apply o (t, .commit op (apply op o.value).1)
        ({ o with value := (apply op o.value).2 }.setCall t (.done (apply op o.value).1))
  | respond (o : Object ι Op Res Q) (t : ι) (res : Res) :
      o.call t = .done res → Step apply o (t, .respond res) (o.setCall t .idle)

end Object

/-- An event of a history: an invocation or a response. -/
inductive HistoryEvent (Op Res : Type*) where
  | invoke (op : Op)
  | respond (res : Res)
  deriving DecidableEq

/-- What the history shows of an event of the object: everything but the commits. -/
def ObjectEvent.observe : ι × ObjectEvent Op Res → Option (ι × HistoryEvent Op Res)
  | (t, .invoke op) => some (t, .invoke op)
  | (_, .commit _ _) => none
  | (t, .respond res) => some (t, .respond res)

/-- The operations in the order in which they took effect, with their results. -/
def commits (tr : List (ι × ObjectEvent Op Res)) : List (Op × Res) :=
  tr.filterMap fun
    | (_, .commit op res) => some (op, res)
    | _ => none

/-- A history is linearizable if commits can be inserted into it so that it becomes a run of the
atomic object. -/
def Linearizable [DecidableEq ι] (apply : Op → Q → Res × Q) (q : Q)
    (history : List (ι × HistoryEvent Op Res)) : Prop :=
  ∃ tr o, Run (Object.Step apply) (Object.new q) tr o ∧ tr.filterMap ObjectEvent.observe = history

/-- `log` is a sequential execution of the specification from `q` to `q'`. -/
inductive Executes (apply : Op → Q → Res × Q) (q : Q) : List (Op × Res) → Q → Prop where
  | nil : Executes apply q [] q
  | snoc {log : List (Op × Res)} {r : Q} (op : Op) :
      Executes apply q log r → Executes apply q (log ++ [(op, (apply op r).1)]) (apply op r).2

/-- The commits of a run of the atomic object are a sequential execution of the specification. -/
theorem Object.Step.executes_commits [DecidableEq ι] {apply : Op → Q → Res × Q}
    {o o' : Object ι Op Res Q} {tr : List (ι × ObjectEvent Op Res)}
    (h : Run (Object.Step apply) o tr o') : Executes apply o.value (commits tr) o'.value := by
  induction h with
  | nil => exact .nil
  | snoc _ hstep ih =>
      unfold commits at ih ⊢
      rw [List.filterMap_append]
      cases hstep with
      | invoke => simpa using ih
      | commit t op hpending => exact ih.snoc op
      | respond => simpa using ih

end Transition

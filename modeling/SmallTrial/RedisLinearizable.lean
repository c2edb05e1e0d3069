import SmallTrial.RedisModel

/-! The `my_redis` server is a linearizable map. The commands take effect in the order in which the mutex is
taken, each connection gets one response for each of its commands, and a task that panics changes nothing
but itself. -/

namespace SmallTrial.Redis

open Text Transition

variable {ι F : Type*} [DecidableEq ι] {fromFrame : F → Option Command} {s t : State ι F} {e : Event ι}
  {tr : List (Event ι)}

/-! ### Steps -/

/-- What a step can do. -/
inductive Effect (fromFrame : F → Option Command) (s : State ι F) : Event ι → State ι F → Prop where
  | accept (c : ι) : s.task c = .absent → Effect fromFrame s (.accept c) (s.goto c .reading)
  | acceptPanic : Effect fromFrame s .acceptPanic { s with accepting := false }
  | read (c : ι) (f : F) : s.task c = .reading → Effect fromFrame s (.read c) (s.goto c (.parsing f))
  | leave (c : ι) : s.task c = .reading → Effect fromFrame s (.leave c) (s.goto c .returned)
  | command (c : ι) (f : F) (op : Op) : s.task c = .parsing f → fromFrame f = some (.access op) →
      Effect fromFrame s (.command c op) (s.goto c (.locking op))
  | lock (c : ι) (op : Op) : s.task c = .locking op → s.guard = none → s.poisoned = false →
      Effect fromFrame s (.lock c op) { s.goto c (.locked op) with guard := some c }
  | apply (c : ι) (op : Op) : s.task c = .locked op →
      Effect fromFrame s (.apply c op (op.run s.db).1)
        { s.goto c (.unlocking (op.run s.db).1) with db := (op.run s.db).2 }
  | unlock (c : ι) (r : Response) : s.task c = .unlocking r →
      Effect fromFrame s (.unlock c) { s.goto c (.writing r) with guard := none }
  | write (c : ι) (r : Response) : s.task c = .writing r →
      Effect fromFrame s (.write c r) (s.goto c .reading)
  | writePanic (c : ι) (r : Response) : s.task c = .writing r →
      Effect fromFrame s (.writePanic c) (s.panic c (some r))
  | panic (c : ι) : (s.task c = .reading ∨ ∃ f, s.task c = .parsing f) →
      Effect fromFrame s (.panic c) (s.panic c none)
  | lockPanic (c : ι) (op : Op) : s.task c = .locking op → s.poisoned = true →
      Effect fromFrame s (.panic c) (s.panic c none)

theorem effect_of_run {c : ι} (h : s.run fromFrame c = some (t, e)) : Effect fromFrame s e t := by
  unfold State.run at h
  split at h
  · rename_i f htask
    split at h
    · rename_i hframe
      cases h
      exact .command c f _ htask hframe
    · cases h
      exact .panic c (.inr ⟨f, htask⟩)
    · cases h
      exact .panic c (.inr ⟨f, htask⟩)
  · rename_i op htask
    split at h
    · cases h
    · rename_i hguard
      split at h
      · rename_i hpoisoned
        cases h
        exact .lockPanic c op htask hpoisoned
      · rename_i hpoisoned
        cases h
        exact .lock c op htask hguard (Bool.eq_false_of_not_eq_true hpoisoned)
  · rename_i op htask
    cases h
    exact .apply c op htask
  · rename_i r htask
    cases h
    exact .unlock c r htask
  · cases h

theorem effect_of_read {c : ι} {result : ReadFrame F} (h : s.read c result = some (t, e)) :
    Effect fromFrame s e t := by
  unfold State.read at h
  split at h
  · rename_i htask
    cases result with
    | frame f =>
        cases h
        exact .read c f htask
    | done =>
        cases h
        exact .leave c htask
    | error =>
        cases h
        exact .panic c (.inl htask)
  · cases h

theorem effect_of_write {c : ι} {ok : Bool} (h : s.write c ok = some (t, e)) :
    Effect fromFrame s e t := by
  unfold State.write at h
  split at h
  · rename_i r htask
    cases ok with
    | true =>
        cases h
        exact .write c r htask
    | false =>
        cases h
        exact .writePanic c r htask
  · cases h

theorem effect_of_step (h : Step fromFrame s e t) : Effect fromFrame s e t := by
  obtain ⟨x, hx⟩ := h
  cases x with
  | accept c =>
      rw [State.next, State.accept] at hx
      split at hx
      · rename_i htask
        cases hx
        exact .accept c htask
      · cases hx
  | acceptError =>
      rw [State.next] at hx
      split at hx
      · cases hx
        exact .acceptPanic
      · cases hx
  | read c result => exact effect_of_read hx
  | write c ok => exact effect_of_write hx
  | run c => exact effect_of_run hx

/-! ### The mutex -/

/-- The guard is bound, or about to be dropped. -/
def Task.holds : Task F → Bool
  | .locked _ | .unlocking _ => true
  | _ => false

/-- The mutex is held by a task that is about to drop it, and not poisoned. -/
structure Clean (s : State ι F) : Prop where
  poisoned : s.poisoned = false
  guard : ∀ c, s.guard = some c ↔ (s.task c).holds = true

/-- A task that does not hold the mutex before and after moving. -/
theorem Clean.goto (h : Clean s) {c : ι} {x : Task F} (hold : (s.task c).holds = false)
    (hnew : x.holds = false) : Clean (s.goto c x) where
  poisoned := h.poisoned
  guard := by
    intro c'
    rw [State.goto]
    dsimp only
    by_cases hc : c' = c
    · rw [hc, Function.update_self, hnew, h.guard c, hold]
    · rw [Function.update_of_ne hc]
      exact h.guard c'

/-- Then a panic leaves the mutex alone. -/
theorem Clean.panic_eq (h : Clean s) {c : ι} (hold : (s.task c).holds = false) (unsent : Option Response) :
    s.panic c unsent = s.goto c (.panicked unsent) := by
  have hguard : s.guard ≠ some c := by
    rw [Ne, h.guard c, hold]
    exact Bool.false_ne_true
  simp [State.panic, State.goto, hguard]

omit [DecidableEq ι] in
theorem clean_start : Clean (State.start : State ι F) where
  poisoned := rfl
  guard := fun _ => ⟨fun h => (by cases h), fun h => (by cases h)⟩

theorem clean_step (h : Clean s) (heffect : Effect fromFrame s e t) : Clean t := by
  have hpanic : ∀ c unsent, (s.task c).holds = false → Clean (s.panic c unsent) := by
    intro c unsent hold
    rw [h.panic_eq hold]
    exact h.goto hold rfl
  cases heffect with
  | accept c htask | read c _ htask | leave c htask | command c f op htask | write c _ htask =>
      exact h.goto (by rw [htask]; rfl) rfl
  | acceptPanic => exact ⟨h.poisoned, h.guard⟩
  | lock c op htask hguard =>
      refine ⟨h.poisoned, fun c' => ?_⟩
      rw [State.goto]
      dsimp only
      by_cases hc : c' = c
      · rw [hc, Function.update_self]
        exact ⟨fun _ => rfl, fun _ => rfl⟩
      · have hfree := h.guard c'
        rw [hguard] at hfree
        rw [Function.update_of_ne hc, ← hfree]
        exact ⟨fun heq => absurd (Option.some.inj heq).symm hc, fun heq => (by cases heq)⟩
  | apply c op htask =>
      refine ⟨h.poisoned, fun c' => ?_⟩
      rw [State.goto]
      dsimp only
      by_cases hc : c' = c
      · rw [hc, Function.update_self, h.guard c, htask]
        exact Iff.rfl
      · rw [Function.update_of_ne hc]
        exact h.guard c'
  | unlock c r htask =>
      refine ⟨h.poisoned, fun c' => ?_⟩
      have hheld : s.guard = some c := (h.guard c).mpr (by rw [htask]; rfl)
      rw [State.goto]
      dsimp only
      by_cases hc : c' = c
      · rw [hc, Function.update_self]
        exact ⟨fun heq => (by cases heq), fun heq => (by cases heq)⟩
      · rw [Function.update_of_ne hc, ← h.guard c', hheld]
        exact ⟨fun heq => (by cases heq), fun heq => absurd (Option.some.inj heq).symm hc⟩
  | writePanic c r htask => exact hpanic c (some r) (by rw [htask]; rfl)
  | panic c htask =>
      rcases htask with htask | ⟨f, htask⟩
      · exact hpanic c none (by rw [htask]; rfl)
      · exact hpanic c none (by rw [htask]; rfl)
  | lockPanic c op htask => exact hpanic c none (by rw [htask]; rfl)

theorem clean_run (h : Run (Step fromFrame) .start tr s) : Clean s :=
  h.stateInvariant Clean clean_start fun _ _ _ hclean hstep => clean_step hclean (effect_of_step hstep)

/-! ### The order of the mutex -/

def Event.lockOf : Event ι → List (ι × Op)
  | .lock c op => [(c, op)]
  | _ => []

def Event.applyOf : Event ι → List (ι × Op × Response)
  | .apply c op r => [(c, op, r)]
  | _ => []

/-- The commands in the order in which their tasks took the mutex. -/
def locks (tr : List (Event ι)) : List (ι × Op) := tr.flatMap Event.lockOf

/-- The commands that were carried out, with their responses. -/
def applied (tr : List (Event ι)) : List (ι × Op × Response) := tr.flatMap Event.applyOf

/-- The command of the task that holds the mutex and has not carried it out. -/
def State.entered (s : State ι F) : List (ι × Op) :=
  match s.guard with
  | none => []
  | some c =>
      match s.task c with
      | .locked op => [(c, op)]
      | _ => []

theorem entered_eq_of_goto {c : ι} {x : Task F} (h : Clean s) (hold : (s.task c).holds = false) :
    (s.goto c x).entered = s.entered := by
  rw [State.entered, State.entered, State.goto]
  dsimp only
  cases hguard : s.guard with
  | none => rfl
  | some c' =>
      have hc : c' ≠ c := by
        rintro rfl
        rw [(h.guard c').mp hguard] at hold
        cases hold
      dsimp only
      rw [Function.update_of_ne hc]

theorem entered_step (h : Clean s) (heffect : Effect fromFrame s e t) :
    s.entered ++ e.lockOf = e.applyOf.map (fun x => (x.1, x.2.1)) ++ t.entered := by
  have hpanic : ∀ c unsent, (s.task c).holds = false → (s.panic c unsent).entered = s.entered := by
    intro c unsent hold
    rw [h.panic_eq hold, entered_eq_of_goto h hold]
  cases heffect with
  | accept c htask | read c _ htask | leave c htask | command c f op htask | write c _ htask =>
      rw [entered_eq_of_goto h (by rw [htask]; rfl)]
      exact List.append_nil _
  | acceptPanic => exact List.append_nil _
  | lock c op htask hguard =>
      rw [State.entered, hguard, State.entered, State.goto]
      dsimp only
      rw [Function.update_self]
      rfl
  | apply c op htask =>
      have hguard : s.guard = some c := (h.guard c).mpr (by rw [htask]; rfl)
      rw [State.entered, State.entered, State.goto, hguard]
      dsimp only
      rw [htask, Function.update_self]
      rfl
  | unlock c r htask =>
      have hguard : s.guard = some c := (h.guard c).mpr (by rw [htask]; rfl)
      rw [State.entered, hguard]
      dsimp only
      rw [htask]
      rfl
  | writePanic c r htask =>
      rw [hpanic c _ (by rw [htask]; rfl)]
      exact List.append_nil _
  | panic c htask =>
      have hold : (s.task c).holds = false := by
        rcases htask with htask | ⟨f, htask⟩
        · rw [htask]
          rfl
        · rw [htask]
          rfl
      rw [hpanic c none hold]
      exact List.append_nil _
  | lockPanic c op htask =>
      rw [hpanic c none (by rw [htask]; rfl)]
      exact List.append_nil _

theorem flatMap_concat {α β : Type*} (f : α → List β) (l : List α) (a : α) :
    (l ++ [a]).flatMap f = l.flatMap f ++ f a := by
  rw [List.flatMap_append, List.flatMap_singleton]

/-- The commands are carried out in the order in which the mutex is taken. -/
theorem locks_eq (h : Run (Step fromFrame) .start tr s) :
    locks tr = (applied tr).map (fun x => (x.1, x.2.1)) ++ s.entered := by
  induction h with
  | nil => rfl
  | @snoc tr e s t hrun hstep ih =>
      have hentered := entered_step (clean_run hrun) (effect_of_step hstep)
      calc locks (tr ++ [e]) = locks tr ++ e.lockOf := flatMap_concat ..
        _ = (applied tr).map (fun x => (x.1, x.2.1)) ++ (s.entered ++ e.lockOf) := by
          rw [ih, List.append_assoc]
        _ = (applied tr).map (fun x => (x.1, x.2.1)) ++
            (e.applyOf.map (fun x => (x.1, x.2.1)) ++ t.entered) := by rw [hentered]
        _ = (applied (tr ++ [e])).map (fun x => (x.1, x.2.1)) ++ t.entered := by
          rw [applied, applied, flatMap_concat, List.map_append, List.append_assoc]

/-! ### The responses of a connection -/

/-- A command that has been read and not carried out. -/
def Task.outstanding : Task F → List Op
  | .locking op | .locked op => [op]
  | _ => []

/-- A response that has not been written. -/
def Task.unsent : Task F → List Response
  | .unlocking r | .writing r => [r]
  | .panicked r => r.toList
  | _ => []

def Event.commandOf (c : ι) : Event ι → List Op
  | .command c' op => if c' = c then [op] else []
  | _ => []

def Event.resultOf (c : ι) (e : Event ι) : List (Op × Response) :=
  (e.applyOf.filter fun x => x.1 = c).map Prod.snd

def Event.responseOf (c : ι) : Event ι → List Response
  | .write c' r => if c' = c then [r] else []
  | _ => []

/-- The commands of a connection, in the order in which they were read. -/
def commands (c : ι) (tr : List (Event ι)) : List Op := tr.flatMap (Event.commandOf c)

/-- Those that were carried out, with their responses. -/
def results (c : ι) (tr : List (Event ι)) : List (Op × Response) :=
  ((applied tr).filter fun x => x.1 = c).map Prod.snd

/-- The responses that were written. -/
def responses (c : ι) (tr : List (Event ι)) : List Response := tr.flatMap (Event.responseOf c)

/-- The connection whose task does a step. -/
def Event.connection : Event ι → Option ι
  | .acceptPanic => none
  | .accept c | .read c | .leave c | .command c _ | .lock c _ | .apply c _ _ | .unlock c | .write c _ |
    .writePanic c | .panic c => some c

/-- A step leaves the tasks of the other connections where they are. -/
theorem task_of_ne {c : ι} (heffect : Effect fromFrame s e t) (hc : e.connection ≠ some c) :
    t.task c = s.task c := by
  cases heffect with
  | acceptPanic => rfl
  | accept c' | read c' | leave c' | command c' | lock c' | apply c' | unlock c' | write c' | writePanic c'
  | panic c' | lockPanic c' =>
      exact Function.update_of_ne (fun heq => hc (congrArg some heq.symm)) _ _

theorem connectionOf_ne {c : ι} (hc : e.connection ≠ some c) :
    e.commandOf c = [] ∧ e.resultOf c = [] ∧ e.responseOf c = [] := by
  cases e with
  | command c' | apply c' | write c' =>
      have hne : c' ≠ c := fun heq => hc (congrArg some heq)
      simp [Event.commandOf, Event.resultOf, Event.applyOf, Event.responseOf, hne]
  | _ => exact ⟨rfl, rfl, rfl⟩

/-- What a step does to the commands and the responses of a connection. -/
theorem connection_step (hclean : Clean s) (c : ι) (heffect : Effect fromFrame s e t) :
    (s.task c).outstanding ++ e.commandOf c = (e.resultOf c).map Prod.fst ++ (t.task c).outstanding ∧
      (s.task c).unsent ++ (e.resultOf c).map Prod.snd = e.responseOf c ++ (t.task c).unsent := by
  by_cases hc : e.connection = some c
  · cases heffect with
    | acceptPanic => cases hc
    | accept _ htask | read _ _ htask | leave _ htask | command _ _ _ htask | lock _ _ htask
    | apply _ _ htask | unlock _ _ htask | write _ _ htask | writePanic _ _ htask =>
        cases hc
        simp [State.goto, State.panic, htask, Task.outstanding, Task.unsent, Event.commandOf,
          Event.resultOf, Event.applyOf, Event.responseOf]
    | panic _ htask =>
        cases hc
        rcases htask with htask | ⟨f, htask⟩ <;>
          simp [State.goto, State.panic, htask, Task.outstanding, Task.unsent, Event.commandOf,
            Event.resultOf, Event.applyOf, Event.responseOf]
    | lockPanic _ _ _ hpoisoned =>
        rw [hclean.poisoned] at hpoisoned
        cases hpoisoned
  · obtain ⟨hcommand, hresult, hresponse⟩ := connectionOf_ne hc
    rw [task_of_ne heffect hc, hcommand, hresult, hresponse]
    simp

/-- Each connection gets the responses to its commands, one for each and in their order. -/
theorem connection_eq (c : ι) (h : Run (Step fromFrame) .start tr s) :
    commands c tr = (results c tr).map Prod.fst ++ (s.task c).outstanding ∧
      (results c tr).map Prod.snd = responses c tr ++ (s.task c).unsent := by
  induction h with
  | nil => exact ⟨rfl, rfl⟩
  | @snoc tr e s t hrun hstep ih =>
      obtain ⟨hcommands, hresponses⟩ := ih
      obtain ⟨hcommand, hresponse⟩ := connection_step (clean_run hrun) c (effect_of_step hstep)
      have hcs : commands c (tr ++ [e]) = commands c tr ++ e.commandOf c := flatMap_concat ..
      have hrs : results c (tr ++ [e]) = results c tr ++ e.resultOf c := by
        rw [results, applied, flatMap_concat, List.filter_append, List.map_append]
        rfl
      have hws : responses c (tr ++ [e]) = responses c tr ++ e.responseOf c := flatMap_concat ..
      constructor
      · rw [hcs, hrs, hcommands, List.map_append, List.append_assoc, List.append_assoc, hcommand]
      · rw [hrs, hws, List.map_append, hresponses, List.append_assoc, List.append_assoc, hresponse]

/-- A response is only lost when it cannot be written. -/
theorem writePanic_of_unsent (c : ι) (h : Run (Step fromFrame) .start tr s) {r : Response}
    (htask : s.task c = .panicked (some r)) : .writePanic c ∈ tr := by
  induction h with
  | nil => cases htask
  | @snoc tr e s t hrun hstep ih =>
      have heffect := effect_of_step hstep
      by_cases hc : e.connection = some c
      · cases heffect with
        | acceptPanic => cases hc
        | writePanic =>
            cases hc
            exact List.mem_append_right _ List.mem_cons_self
        | accept | read | leave | command | lock | apply | unlock | write | panic | lockPanic =>
            cases hc
            simp [State.goto, State.panic] at htask
      · rw [task_of_ne heffect hc] at htask
        exact List.mem_append_left _ (ih htask)

/-! ### The atomic map -/

/-- Where a connection's command stands on the atomic map. -/
def Task.call : Task F → Call Op Response
  | .locking op | .locked op => .pending op
  | .unlocking r | .writing r | .panicked (some r) => .done r
  | _ => .idle

def State.object (s : State ι F) : Object ι Op Response Db := ⟨s.db, fun c => (s.task c).call⟩

/-- A command is invoked when it has been read, takes effect under the mutex and responds when its response
has been written. -/
def Event.objectEvent : Event ι → Option (ι × ObjectEvent Op Response)
  | .command c op => some (c, .invoke op)
  | .apply c op r => some (c, .commit op r)
  | .write c r => some (c, .respond r)
  | _ => none

/-- What the clients see. -/
def Event.observe : Event ι → Option (ι × HistoryEvent Op Response)
  | .command c op => some (c, .invoke op)
  | .write c r => some (c, .respond r)
  | _ => none

omit [DecidableEq ι] in
theorem object_call (s : State ι F) (c : ι) : s.object.call c = (s.task c).call := rfl

theorem object_goto (s : State ι F) (c : ι) (x : Task F) :
    (s.goto c x).object = s.object.setCall c x.call := by
  have hcall : (fun c' => (Function.update s.task c x c').call) =
      Function.update (fun c' => (s.task c').call) c x.call :=
    Function.comp_update Task.call s.task c x
  rw [State.object, State.goto, hcall]
  rfl

/-- A task that moves without its command being invoked, taking effect or responding. -/
theorem object_goto_of_call {c : ι} {x : Task F} (h : x.call = (s.task c).call) :
    (s.goto c x).object = s.object := by
  rw [object_goto, h]
  exact Object.setCall_call s.object c

theorem object_step (hclean : Clean s) (heffect : Effect fromFrame s e t) :
    (e.objectEvent = none ∧ t.object = s.object) ∨
      ∃ oe, e.objectEvent = some oe ∧ Object.Step Op.run s.object oe t.object := by
  cases heffect with
  | accept c htask | read c _ htask | leave c htask =>
      exact .inl ⟨rfl, object_goto_of_call (by rw [htask]; rfl)⟩
  | acceptPanic => exact .inl ⟨rfl, rfl⟩
  | command c f op htask =>
      have hidle : s.object.call c = .idle := by
        rw [object_call, htask]
        rfl
      refine .inr ⟨_, rfl, ?_⟩
      rw [object_goto]
      exact .invoke s.object c op hidle
  | lock c op htask =>
      have hcall : (Task.locked op : Task F).call = (s.task c).call := by
        rw [htask]
        rfl
      exact .inl ⟨rfl, object_goto_of_call hcall⟩
  | apply c op htask =>
      have hpending : s.object.call c = .pending op := by
        rw [object_call, htask, Task.call]
      have hobject := object_goto { s with db := (op.run s.db).2 } c (.unlocking (op.run s.db).1)
      refine .inr ⟨_, rfl, ?_⟩
      rw [State.goto] at hobject ⊢
      rw [hobject]
      exact .commit s.object c op hpending
  | unlock c r htask =>
      have hcall : (Task.writing r : Task F).call = (s.task c).call := by
        rw [htask]
        rfl
      exact .inl ⟨rfl, object_goto_of_call hcall⟩
  | write c r htask =>
      have hdone : s.object.call c = .done r := by
        rw [object_call, htask, Task.call]
      refine .inr ⟨_, rfl, ?_⟩
      rw [object_goto]
      exact .respond s.object c r hdone
  | writePanic c r htask =>
      rw [hclean.panic_eq (by rw [htask]; rfl)]
      exact .inl ⟨rfl, object_goto_of_call (by rw [htask]; rfl)⟩
  | panic c htask =>
      rcases htask with htask | ⟨f, htask⟩
      · rw [hclean.panic_eq (by rw [htask]; rfl)]
        exact .inl ⟨rfl, object_goto_of_call (by rw [htask]; rfl)⟩
      · rw [hclean.panic_eq (by rw [htask]; rfl)]
        exact .inl ⟨rfl, object_goto_of_call (by rw [htask]; rfl)⟩
  | lockPanic c op htask hpoisoned =>
      rw [hclean.poisoned] at hpoisoned
      cases hpoisoned

/-- Every run of the server is a run of the atomic map. -/
theorem object_run (h : Run (Step fromFrame) .start tr s) :
    Run (Object.Step Op.run) (Object.new fun _ => none) (tr.filterMap Event.objectEvent) s.object := by
  induction h with
  | nil => exact .nil
  | @snoc tr e s t hrun hstep ih =>
      rw [List.filterMap_append]
      rcases object_step (clean_run hrun) (effect_of_step hstep) with ⟨hnone, hobject⟩ | ⟨oe, hsome, hobject⟩
      · rw [List.filterMap_cons_none hnone, List.filterMap_nil, List.append_nil, hobject]
        exact ih
      · rw [List.filterMap_cons_some hsome, List.filterMap_nil]
        exact ih.snoc hobject

omit [DecidableEq ι] in
theorem observe_eq (tr : List (Event ι)) :
    (tr.filterMap Event.objectEvent).filterMap ObjectEvent.observe = tr.filterMap Event.observe := by
  rw [List.filterMap_filterMap]
  congr 1
  funext e
  cases e <;> rfl

omit [DecidableEq ι] in
theorem commits_eq (tr : List (Event ι)) :
    commits (tr.filterMap Event.objectEvent) = (applied tr).map Prod.snd := by
  induction tr with
  | nil => rfl
  | cons e tr ih =>
      unfold commits applied at ih ⊢
      rw [List.flatMap_cons, List.map_append, ← ih]
      cases e <;> rfl

/-! ### The responses -/

/-- The value of the last `Set` of a key. -/
def lastSet (key : String) (ops : List Op) : Option Bytes :=
  (ops.filterMap fun
    | .set key' value => if key' = key then some value else none
    | .get _ => none).getLast?

/-- The response to a command after some others. -/
def answer (before : List Op) : Op → Response
  | .set _ _ => .simple "OK"
  | .get key =>
      match lastSet key before with
      | some value => .bulk value
      | none => .null

theorem lastSet_concat_set (key key' : String) (value : Bytes) (ops : List Op) :
    lastSet key (ops ++ [.set key' value]) = if key' = key then some value else lastSet key ops := by
  unfold lastSet
  rw [List.filterMap_append]
  by_cases h : key' = key
  · simp [h]
  · simp [h]

theorem lastSet_concat_get (key key' : String) (ops : List Op) :
    lastSet key (ops ++ [.get key']) = lastSet key ops := by
  unfold lastSet
  rw [List.filterMap_append]
  simp

/-- The map holds the last value of each key. -/
theorem db_eq_lastSet {log : List (Op × Response)} {db : Db}
    (h : Executes Op.run (fun _ => none) log db) (key : String) :
    db key = lastSet key (log.map Prod.fst) := by
  induction h with
  | nil => rfl
  | @snoc log db op _ ih =>
      rw [List.map_append, List.map_singleton]
      cases op with
      | set key' value =>
          rw [lastSet_concat_set, Op.run, ← ih]
          by_cases hkey : key' = key
          · rw [if_pos hkey, ← hkey]
            exact Function.update_self ..
          · rw [if_neg hkey]
            exact Function.update_of_ne (Ne.symm hkey) ..
      | get key' =>
          rw [lastSet_concat_get, ← ih, Op.run]
          split <;> rfl

theorem run_eq_answer {log : List (Op × Response)} {db : Db}
    (h : Executes Op.run (fun _ => none) log db) (op : Op) :
    (op.run db).1 = answer (log.map Prod.fst) op := by
  cases op with
  | set => rfl
  | get key =>
      rw [Op.run, answer, db_eq_lastSet h key]
      cases lastSet key (log.map Prod.fst) <;> rfl

theorem answer_of_executes {log before after : List (Op × Response)} {op : Op} {r : Response} {db : Db}
    (h : Executes Op.run (fun _ => none) log db) (hlog : log = before ++ (op, r) :: after) :
    r = answer (before.map Prod.fst) op := by
  induction h generalizing after with
  | nil => simp at hlog
  | @snoc log db op' hlogged ih =>
      rcases List.eq_nil_or_concat after with rfl | ⟨init, last, rfl⟩
      · obtain ⟨rfl, hlast⟩ := List.append_inj' hlog rfl
        cases hlast
        exact run_eq_answer hlogged op
      · rw [List.concat_eq_append, ← List.cons_append, ← List.append_assoc] at hlog
        exact ih (List.append_inj' hlog rfl).1

/-! ### Progress -/

theorem step_apply {c : ι} {op : Op} (h : s.task c = .locked op) : Step fromFrame s
    (.apply c op (op.run s.db).1) { s.goto c (.unlocking (op.run s.db).1) with db := (op.run s.db).2 } :=
  ⟨.run c, by rw [State.next, State.run, h]⟩

theorem step_unlock {c : ι} {r : Response} (h : s.task c = .unlocking r) :
    Step fromFrame s (.unlock c) { s.goto c (.writing r) with guard := none } :=
  ⟨.run c, by rw [State.next, State.run, h]⟩

/-- The task that holds the mutex drops it in one or two steps of its own. -/
theorem release (h : Clean s) {c : ι} (hguard : s.guard = some c) :
    ∃ tr' t, Run (Step fromFrame) s tr' t ∧ (∀ e ∈ tr', e.connection = some c) ∧ t.guard = none ∧
      t.poisoned = false ∧ ∀ c', c' ≠ c → t.task c' = s.task c' := by
  have hholds := (h.guard c).mp hguard
  cases htask : s.task c with
  | locked op =>
      have happly : Step fromFrame s _ _ := step_apply htask
      have hunlock : Step fromFrame
          { s.goto c (.unlocking (op.run s.db).1) with db := (op.run s.db).2 } _ _ :=
        step_unlock (Function.update_self ..)
      refine ⟨_, _, (Run.single happly).snoc hunlock, ?_, rfl, h.poisoned, fun c' hc => ?_⟩
      · intro e he
        rcases List.mem_pair.mp he with rfl | rfl
        · rfl
        · rfl
      · exact (Function.update_of_ne hc ..).trans (Function.update_of_ne hc ..)
  | unlocking r =>
      have hunlock : Step fromFrame s _ _ := step_unlock htask
      refine ⟨_, _, Run.single hunlock, ?_, rfl, h.poisoned, fun c' hc => Function.update_of_ne hc ..⟩
      intro e he
      rw [List.mem_singleton.mp he]
      rfl
  | absent | reading | parsing | locking | writing | returned | panicked =>
      rw [htask] at hholds
      cases hholds

/-- A task at the free mutex gets to the write of its response. -/
theorem carry_out {c : ι} {op : Op} (htask : s.task c = .locking op) (hguard : s.guard = none)
    (hpoisoned : s.poisoned = false) : ∃ tr' t r, Run (Step fromFrame) s tr' t ∧
      (∀ e ∈ tr', e.connection = some c) ∧ t.task c = .writing r := by
  have hlock : Step fromFrame s (.lock c op) { s.goto c (.locked op) with guard := some c } :=
    ⟨.run c, by rw [State.next, State.run, htask, hguard, hpoisoned]; rfl⟩
  have happly : Step fromFrame { s.goto c (.locked op) with guard := some c } _ _ :=
    step_apply (Function.update_self ..)
  refine ⟨_, _, _, ((Run.single hlock).snoc happly).snoc (step_unlock (Function.update_self ..)), ?_,
    Function.update_self ..⟩
  intro e he
  simp only [List.cons_append, List.nil_append, List.mem_cons, List.not_mem_nil, or_false] at he
  rcases he with rfl | rfl | rfl
  · rfl
  · rfl
  · rfl

/-- A command that waits for the mutex only waits for the task that holds it. -/
theorem progress (h : Clean s) {c : ι} {op : Op} (htask : s.task c = .locking op) :
    ∃ tr' t r, Run (Step fromFrame) s tr' t ∧
      (∀ e ∈ tr', e.connection = some c ∨ e.connection = s.guard) ∧ t.task c = .writing r := by
  cases hguard : s.guard with
  | none =>
      obtain ⟨tr', t, r, hrun, hevents, ht⟩ := carry_out htask hguard h.poisoned
      exact ⟨tr', t, r, hrun, fun e he => .inl (hevents e he), ht⟩
  | some c' =>
      have hc : c ≠ c' := by
        rintro rfl
        have hholds := (h.guard c).mp hguard
        rw [htask] at hholds
        cases hholds
      obtain ⟨tr₁, s₁, hrun₁, hevents₁, hguard₁, hpoisoned₁, htask₁⟩ := release h hguard
      obtain ⟨tr₂, t, r, hrun₂, hevents₂, ht⟩ :=
        carry_out ((htask₁ c hc).trans htask) hguard₁ hpoisoned₁
      refine ⟨tr₁ ++ tr₂, t, r, hrun₁.append hrun₂, fun e he => ?_, ht⟩
      rcases List.mem_append.mp he with he | he
      · exact .inr (hevents₁ e he)
      · exact .inl (hevents₂ e he)

/-! ### The server -/

/-- What the connections can rely on after the events `tr`. -/
structure Serves (fromFrame : F → Option Command) (tr : List (Event ι)) (s : State ι F) : Prop where
  linearizable : Linearizable Op.run (fun _ => none) (tr.filterMap Event.observe)
  /-- the commands take effect in the order in which the mutex is taken -/
  order : locks tr = (applied tr).map (fun x => (x.1, x.2.1)) ++ s.entered
  /-- each with the response that the commands before it determine -/
  answer : ∀ before c op r after, applied tr = before ++ (c, op, r) :: after →
    r = answer (before.map fun x => x.2.1) op
  db : ∀ key, s.db key = lastSet key ((applied tr).map fun x => x.2.1)
  /-- one response for each command of a connection, in their order -/
  commands : ∀ c, commands c tr = (results c tr).map Prod.fst ++ (s.task c).outstanding
  responses : ∀ c, (results c tr).map Prod.snd = responses c tr ++ (s.task c).unsent
  written : ∀ c r, s.task c = .panicked (some r) → .writePanic c ∈ tr
  /-- a command that is malformed or not supported ends its own connection, and changes nothing else -/
  malformed : ∀ c f, s.task c = .parsing f → (∀ op, fromFrame f ≠ some (.access op)) →
    s.next fromFrame (.run c) = some (s.goto c (.panicked none), .panic c)
  /-- and so does any panic -/
  panics : ∀ c e t, e = .panic c ∨ e = .writePanic c → Step fromFrame s e t →
    ∃ unsent, t = s.goto c (.panicked unsent)
  clean : Clean s
  /-- no task that has ended, or waits for its peer, holds up a command of another connection -/
  progress : ∀ c op, s.task c = .locking op → ∃ tr' t r, Run (Step fromFrame) s tr' t ∧
    (∀ e ∈ tr', e.connection = some c ∨ e.connection = s.guard) ∧ t.task c = .writing r

theorem malformed_eq (h : Clean s) {c : ι} {f : F} (htask : s.task c = .parsing f)
    (hf : ∀ op, fromFrame f ≠ some (.access op)) :
    s.next fromFrame (.run c) = some (s.goto c (.panicked none), .panic c) := by
  have hpanic := h.panic_eq (c := c) (by rw [htask]; rfl) none
  rw [State.next, State.run, htask]
  dsimp only
  cases hframe : fromFrame f with
  | none => rw [← hpanic]
  | some command =>
      cases command with
      | access op => exact absurd hframe (hf op)
      | other => rw [← hpanic]

theorem eq_goto_of_panic (h : Clean s) {c : ι} (he : e = .panic c ∨ e = .writePanic c)
    (heffect : Effect fromFrame s e t) : ∃ unsent, t = s.goto c (.panicked unsent) := by
  cases heffect with
  | accept | acceptPanic | read | leave | command | lock | apply | unlock | write =>
      rcases he with he | he <;> cases he
  | writePanic c' r htask =>
      rcases he with he | he <;> cases he
      exact ⟨_, h.panic_eq (by rw [htask]; rfl) _⟩
  | panic c' htask =>
      rcases he with he | he <;> cases he
      rcases htask with htask | ⟨f, htask⟩
      · exact ⟨_, h.panic_eq (by rw [htask]; rfl) _⟩
      · exact ⟨_, h.panic_eq (by rw [htask]; rfl) _⟩
  | lockPanic c' op htask =>
      rcases he with he | he <;> cases he
      exact ⟨_, h.panic_eq (by rw [htask]; rfl) _⟩

/-- **The server is a linearizable map**, for any number of connections, any interleaving of their tasks
and any results of reads and writes, and a connection that ends in a panic does not disturb the others. -/
theorem process_serves (h : Run (Step fromFrame) .start tr s) : Serves fromFrame tr s := by
  have hclean := clean_run h
  have hobject := object_run h
  have hexecutes := Object.Step.executes_commits hobject
  rw [commits_eq] at hexecutes
  exact {
    linearizable := ⟨_, _, hobject, observe_eq tr⟩
    order := locks_eq h
    answer := by
      intro before c op r after happlied
      rw [happlied, List.map_append, List.map_cons] at hexecutes
      have hanswer := answer_of_executes hexecutes rfl
      rwa [List.map_map] at hanswer
    db := by
      intro key
      have hdb := db_eq_lastSet hexecutes key
      rwa [List.map_map] at hdb
    commands := fun c => (connection_eq c h).1
    responses := fun c => (connection_eq c h).2
    written := fun c r htask => writePanic_of_unsent c h htask
    malformed := fun c f htask hf => malformed_eq hclean htask hf
    panics := fun c e t he hstep => eq_goto_of_panic hclean he (effect_of_step hstep)
    clean := hclean
    progress := fun c op htask => progress hclean htask }

/-- Connection `false` reads two commands and connection `true` a frame that is none. -/
def twoConnections : List (Choice Bool (Option Command)) :=
  [.accept false, .accept true, .read false (.frame (some (.access (.set "a" [49])))),
    .read true (.frame none), .run false, .run false, .run true, .run false, .run false, .write false true,
    .read false (.frame (some (.access (.get "a")))), .run false, .run false, .run false, .run false,
    .write false true]

theorem process_serves_two : ∃ (tr : List (Event Bool)) (s : State Bool (Option Command)),
    Serves id tr s ∧ responses false tr = [.simple "OK", .bulk [49]] ∧ .panic true ∈ tr := by
  have hreplay : (replay (State.next id) State.start twoConnections).map (fun r =>
      (responses false r.2, decide (Event.panic true ∈ r.2))) = some ([.simple "OK", .bulk [49]], true) := by
    decide +kernel
  obtain ⟨⟨s, tr⟩, hreplayed, hfacts⟩ := Option.map_eq_some_iff.mp hreplay
  simp only [Prod.mk.injEq, decide_eq_true_eq] at hfacts
  obtain ⟨hresponses, hpanic⟩ := hfacts
  have hrun : Run (Step id) State.start tr s := Run.of_replay (fun _ x _ _ h => ⟨x, h⟩) hreplayed
  exact ⟨tr, s, process_serves hrun, hresponses, hpanic⟩

end SmallTrial.Redis

import SmallTrial.TransitionFamily
import SmallTrial.TransitionHistory
import SmallTrial.TransitionObject

/-! A sequential object behind a mutex. A call takes the lock, loads the value, stores the new one, drops
the guard and returns; its thread may be interrupted between any two of these steps. The histories of the
guarded object are those of the atomic one. -/

namespace Transition

variable {ι Op Res Q : Type*}

/-- Where a thread stands in a call on a guarded object. -/
inductive GuardedPc (Op Res Q : Type*) where
  | idle
  -- at `lock()`
  | locking (op : Op)
  -- the guard is bound
  | locked (op : Op)
  -- with the value that the guard gave
  | loaded (op : Op) (q : Q)
  -- the guard is about to be dropped
  | unlocking (res : Res)
  | returning (res : Res)

/-- The value, the thread that holds the mutex, and the calls. -/
structure Guarded (ι Op Res Q : Type*) where
  value : Q
  guard : Option ι
  pc : ι → GuardedPc Op Res Q

def Guarded.new (q : Q) : Guarded ι Op Res Q := ⟨q, none, fun _ => .idle⟩

inductive GuardedEvent (Op Res : Type*) where
  | invoke (op : Op)
  | lock
  | load
  | store (op : Op) (res : Res)
  | unlock
  | respond (res : Res)
  deriving DecidableEq

/-- What the thread is told to do. -/
def GuardedEvent.move : ι × GuardedEvent Op Res → ι × Option Op
  | (t, .invoke op) => (t, some op)
  | (t, _) => (t, none)

/-- What the history shows of an event: the calls and the returns. -/
def GuardedEvent.observe : ι × GuardedEvent Op Res → Option (ι × HistoryEvent Op Res)
  | (t, .invoke op) => some (t, .invoke op)
  | (t, .respond res) => some (t, .respond res)
  | _ => none

namespace GuardedPc

/-- The thread holds the mutex. -/
def holds : GuardedPc Op Res Q → Bool
  | .locked _ | .loaded _ _ | .unlocking _ => true
  | _ => false

/-- The call on the atomic object; it takes effect with the store. -/
def call : GuardedPc Op Res Q → Call Op Res
  | .idle => .idle
  | .locking op | .locked op | .loaded op _ => .pending op
  | .unlocking res | .returning res => .done res

/-- Where a thread rests that does not hold the mutex. -/
def ofCall : Call Op Res → GuardedPc Op Res Q
  | .idle => .idle
  | .pending op => .locking op
  | .done res => .returning res

/-- The steps that the call still takes. -/
def remaining : GuardedPc Op Res Q → Nat
  | .idle => 0
  | .locking _ => 5
  | .locked _ => 4
  | .loaded _ _ => 3
  | .unlocking _ => 2
  | .returning _ => 1

theorem remaining_le (x : GuardedPc Op Res Q) : x.remaining ≤ 5 := by
  cases x <;> simp [remaining]

end GuardedPc

namespace Guarded

variable [DecidableEq ι]

def goto (s : Guarded ι Op Res Q) (t : ι) (x : GuardedPc Op Res Q) : Guarded ι Op Res Q :=
  { s with pc := Function.update s.pc t x }

/-- Thread `t` starts a call, or takes the next step of the one it is in. -/
def next (apply : Op → Q → Res × Q) (s : Guarded ι Op Res Q) :
    ι × Option Op → Option (Guarded ι Op Res Q × (ι × GuardedEvent Op Res))
  | (t, some op) =>
      match s.pc t with
      | .idle => some (s.goto t (.locking op), (t, .invoke op))
      | _ => none
  | (t, none) =>
      match s.pc t with
      | .idle => none
      | .locking op =>
          match s.guard with
          | none => some ({ s.goto t (.locked op) with guard := some t }, (t, .lock))
          | some _ => none
      | .locked op => some (s.goto t (.loaded op s.value), (t, .load))
      | .loaded op q =>
          some ({ s.goto t (.unlocking (apply op q).1) with value := (apply op q).2 },
            (t, .store op (apply op q).1))
      | .unlocking res => some ({ s.goto t (.returning res) with guard := none }, (t, .unlock))
      | .returning res => some (s.goto t .idle, (t, .respond res))

def Step (apply : Op → Q → Res × Q) (s : Guarded ι Op Res Q) (e : ι × GuardedEvent Op Res)
    (s' : Guarded ι Op Res Q) : Prop := ∃ m, s.next apply m = some (s', e)

variable {apply : Op → Q → Res × Q} {s s' : Guarded ι Op Res Q} {e : ι × GuardedEvent Op Res}
  {o o' : Object ι Op Res Q}

@[simp] theorem goto_self (s : Guarded ι Op Res Q) (t : ι) (x : GuardedPc Op Res Q) :
    (s.goto t x).pc t = x := Function.update_self ..

/-! ### Steps -/

/-- What a step can do. -/
inductive Effect (apply : Op → Q → Res × Q) (s : Guarded ι Op Res Q) :
    ι × GuardedEvent Op Res → Guarded ι Op Res Q → Prop where
  | invoke (t : ι) (op : Op) : s.pc t = .idle →
      Effect apply s (t, .invoke op) (s.goto t (.locking op))
  | lock (t : ι) (op : Op) : s.pc t = .locking op → s.guard = none →
      Effect apply s (t, .lock) { s.goto t (.locked op) with guard := some t }
  | load (t : ι) (op : Op) : s.pc t = .locked op →
      Effect apply s (t, .load) (s.goto t (.loaded op s.value))
  | store (t : ι) (op : Op) (q : Q) : s.pc t = .loaded op q →
      Effect apply s (t, .store op (apply op q).1)
        { s.goto t (.unlocking (apply op q).1) with value := (apply op q).2 }
  | unlock (t : ι) (res : Res) : s.pc t = .unlocking res →
      Effect apply s (t, .unlock) { s.goto t (.returning res) with guard := none }
  | respond (t : ι) (res : Res) : s.pc t = .returning res →
      Effect apply s (t, .respond res) (s.goto t .idle)

theorem effect_of_step (h : Step apply s e s') : Effect apply s e s' := by
  obtain ⟨⟨t, op⟩, h⟩ := h
  cases op with
  | some op =>
      simp only [next] at h
      split at h
      · rename_i hpc
        cases h
        exact .invoke t op hpc
      · cases h
  | none =>
      simp only [next] at h
      cases hpc : s.pc t with
      | idle =>
          simp only [hpc] at h
          cases h
      | locking op =>
          simp only [hpc] at h
          split at h
          · rename_i hguard
            cases h
            exact .lock t op hpc hguard
          · cases h
      | locked op =>
          simp only [hpc] at h
          cases h
          exact .load t op hpc
      | loaded op q =>
          simp only [hpc] at h
          cases h
          exact .store t op q hpc
      | unlocking res =>
          simp only [hpc] at h
          cases h
          exact .unlock t res hpc
      | returning res =>
          simp only [hpc] at h
          cases h
          exact .respond t res hpc

/-! ### Mutual exclusion -/

/-- One thread at most is between `lock()` and the drop of its guard, and what it has loaded is the
value. -/
structure Exclusive (s : Guarded ι Op Res Q) : Prop where
  guard : ∀ t, s.guard = some t ↔ (s.pc t).holds = true
  loaded : ∀ t op q, s.pc t = .loaded op q → q = s.value

namespace Exclusive

omit [DecidableEq ι] in
theorem new (q : Q) : Exclusive (Guarded.new q : Guarded ι Op Res Q) where
  guard := fun t => iff_of_false (by simp [Guarded.new]) (by simp [Guarded.new, GuardedPc.holds])
  loaded := fun t op q h => by cases h

omit [DecidableEq ι] in
/-- Two threads do not hold the mutex at once. -/
theorem unique (H : Exclusive s) {t t' : ι} (ht : (s.pc t).holds = true) (ht' : (s.pc t').holds = true) :
    t = t' := Option.some.inj (((H.guard t).mpr ht).symm.trans ((H.guard t').mpr ht'))

/-- A thread moves. The guard changes hands only to or from it, and the value only under its guard. -/
theorem move (H : Exclusive s) {t : ι} {x : GuardedPc Op Res Q} {g : Option ι} {q : Q}
    (hself : g = some t ↔ x.holds = true) (hother : ∀ t', t' ≠ t → (g = some t' ↔ s.guard = some t'))
    (hvalue : q = s.value ∨ (s.pc t).holds = true) (hloaded : ∀ op q', x = .loaded op q' → q' = q) :
    Exclusive ⟨q, g, Function.update s.pc t x⟩ where
  guard := by
    intro t'
    dsimp only
    by_cases ht : t' = t
    · rw [ht, Function.update_self, hself]
    · rw [Function.update_of_ne ht, hother t' ht, H.guard t']
  loaded := by
    intro t' op q' h
    dsimp only at h
    by_cases ht : t' = t
    · rw [ht, Function.update_self] at h
      exact hloaded op q' h
    · rw [Function.update_of_ne ht] at h
      rcases hvalue with hvalue | hholds
      · rw [hvalue]
        exact H.loaded t' op q' h
      · -- the other thread would hold the mutex too
        exact absurd (H.unique (by rw [h]; rfl) hholds) ht

theorem step (H : Exclusive s) (hstep : Step apply s e s') : Exclusive s' := by
  have hguard : ∀ t, (s.pc t).holds = false → s.guard ≠ some t := fun t hold h => by
    rw [(H.guard t).mp h] at hold
    cases hold
  cases effect_of_step hstep with
  | invoke t op hpc =>
      have hfree := hguard t (by rw [hpc]; rfl)
      exact H.move (iff_of_false hfree Bool.false_ne_true) (fun _ _ => Iff.rfl) (.inl rfl)
        fun op' q' h => by cases h
  | lock t op hpc hnone =>
      refine H.move (iff_of_true rfl rfl) (fun t' ht => ?_) (.inl rfl) fun op' q' h => by cases h
      rw [hnone]
      exact iff_of_false (fun h => ht (Option.some.inj h).symm) (Option.some_ne_none t').symm
  | load t op hpc =>
      have hheld : s.guard = some t := (H.guard t).mpr (by rw [hpc]; rfl)
      refine H.move (iff_of_true hheld rfl) (fun _ _ => Iff.rfl) (.inl rfl) fun op' q' h => ?_
      cases h
      rfl
  | store t op q hpc =>
      have hholds : (s.pc t).holds = true := by rw [hpc]; rfl
      exact H.move (iff_of_true ((H.guard t).mpr hholds) rfl) (fun _ _ => Iff.rfl) (.inr hholds)
        fun op' q' h => by cases h
  | unlock t res hpc =>
      have hheld : s.guard = some t := (H.guard t).mpr (by rw [hpc]; rfl)
      refine H.move (iff_of_false (Option.some_ne_none t).symm Bool.false_ne_true) (fun t' ht => ?_)
        (.inl rfl) fun op' q' h => by cases h
      rw [hheld]
      exact iff_of_false (Option.some_ne_none t').symm fun h => ht (Option.some.inj h).symm
  | respond t res hpc =>
      have hfree := hguard t (by rw [hpc]; rfl)
      exact H.move (iff_of_false hfree Bool.false_ne_true) (fun _ _ => Iff.rfl) (.inl rfl)
        fun op' q' h => by cases h

theorem run {q : Q} {tr : List (ι × GuardedEvent Op Res)} (h : Run (Step apply) (Guarded.new q) tr s) :
    Exclusive s := h.stateInvariant Exclusive (.new q) fun _ _ _ H hstep => H.step hstep

end Exclusive

/-! ### Histories -/

/-- The guarded object with the calls that its threads are in. -/
def Shows (s : Guarded ι Op Res Q) (o : Object ι Op Res Q) : Prop :=
  Exclusive s ∧ o = ⟨s.value, fun t => (s.pc t).call⟩

/-- A step that moves one thread, and its call with it. -/
theorem call_goto (s : Guarded ι Op Res Q) (q : Q) (t : ι) (x : GuardedPc Op Res Q) :
    (⟨q, fun t' => (Function.update s.pc t x t').call⟩ : Object ι Op Res Q) =
      { Object.mk q fun t' => (s.pc t').call with
        call := Function.update (fun t' => (s.pc t').call) t x.call } := by
  congr 1
  funext t'
  by_cases ht : t' = t
  · rw [ht, Function.update_self, Function.update_self]
  · rw [Function.update_of_ne ht, Function.update_of_ne ht]

/-- A step that the history does not show leaves the object as it is. -/
theorem call_stay {s : Guarded ι Op Res Q} {t : ι} {x : GuardedPc Op Res Q}
    (hcall : x.call = (s.pc t).call) :
    (fun t' => (Function.update s.pc t x t').call) = fun t' => (s.pc t').call := by
  funext t'
  by_cases ht : t' = t
  · rw [ht, Function.update_self, hcall]
  · rw [Function.update_of_ne ht]

/-- The store is the point at which a call takes effect. -/
theorem shows_forward (apply : Op → Q → Res × Q) : ForwardSimulation (Step apply) GuardedEvent.observe
    (Object.Step apply) ObjectEvent.observe (Shows (ι := ι)) := by
  rintro s e s' o ⟨H, rfl⟩ hstep
  refine ⟨_, ⟨H.step hstep, rfl⟩, ?_⟩
  have hpending : ∀ t x, s.pc t = x →
      (Object.mk s.value fun t => (s.pc t).call : Object ι Op Res Q).call t = x.call :=
    fun t x hpc => congrArg GuardedPc.call hpc
  cases effect_of_step hstep with
  | invoke t op hpc =>
      rw [goto, call_goto]
      exact .inr ⟨_, .invoke _ t op (hpending t _ hpc), rfl⟩
  | lock t op hpc =>
      rw [goto, call_stay (by rw [hpc]; rfl)]
      exact .inl ⟨rfl, rfl⟩
  | load t op hpc =>
      rw [goto, call_stay (by rw [hpc]; rfl)]
      exact .inl ⟨rfl, rfl⟩
  | store t op q hpc =>
      rw [goto, H.loaded t op q hpc, call_goto]
      exact .inr ⟨_, .commit _ t op (hpending t _ hpc), rfl⟩
  | unlock t res hpc =>
      rw [goto, call_stay (by rw [hpc]; rfl)]
      exact .inl ⟨rfl, rfl⟩
  | respond t res hpc =>
      rw [goto, call_goto]
      exact .inr ⟨_, .respond _ t res (hpending t _ hpc), rfl⟩

/-- The state in which no thread is between `lock()` and the drop of its guard. -/
def ofObject (o : Object ι Op Res Q) : Guarded ι Op Res Q := ⟨o.value, none, fun t => .ofCall (o.call t)⟩

theorem ofObject_goto (o : Object ι Op Res Q) (q : Q) (t : ι) (c : Call Op Res) :
    (⟨q, none, Function.update (ofObject o).pc t (.ofCall c)⟩ : Guarded ι Op Res Q) =
      ofObject ({ o with value := q }.setCall t c) := by
  rw [ofObject, ofObject]
  congr 1
  funext t'
  by_cases ht : t' = t
  · rw [ht, Function.update_self, Object.setCall_self]
  · rw [Function.update_of_ne ht, Object.setCall_of_ne _ _ ht]

/-- A call that takes effect at once: nothing happens between its `lock()` and the drop of its guard. -/
theorem commit_run (apply : Op → Q → Res × Q) (o : Object ι Op Res Q) {t : ι} {op : Op}
    (hcall : o.call t = .pending op) :
    Run (Step apply) (ofObject o) [(t, .lock), (t, .load), (t, .store op (apply op o.value).1), (t, .unlock)]
      (ofObject ({ o with value := (apply op o.value).2 }.setCall t (.done (apply op o.value).1))) := by
  have hpc : (ofObject o).pc t = .locking op := congrArg GuardedPc.ofCall hcall
  let holding (q : Q) (x : GuardedPc Op Res Q) : Guarded ι Op Res Q :=
    ⟨q, some t, Function.update (ofObject o).pc t x⟩
  have hlock : Step apply (ofObject o) (t, .lock) (holding o.value (.locked op)) :=
    ⟨(t, none), by simp only [next, hpc]; rfl⟩
  have hload : Step apply (holding o.value (.locked op)) (t, .load) (holding o.value (.loaded op o.value)) :=
    ⟨(t, none), by simp [next, goto, holding]⟩
  have hstore : Step apply (holding o.value (.loaded op o.value)) (t, .store op (apply op o.value).1)
      (holding (apply op o.value).2 (.unlocking (apply op o.value).1)) :=
    ⟨(t, none), by simp [next, goto, holding]⟩
  refine (((Run.single hlock).snoc hload).snoc hstore).snoc ⟨(t, none), ?_⟩
  rw [← ofObject_goto]
  simp [next, goto, holding, GuardedPc.ofCall]

/-- Every step of the atomic object is one of the guarded object, or four. -/
theorem ofObject_runs (apply : Op → Q → Res × Q) : RunSimulation (Object.Step apply) ObjectEvent.observe
    (Step apply) GuardedEvent.observe fun (o : Object ι Op Res Q) s => s = ofObject o := by
  rintro o e o' s rfl hstep
  cases hstep with
  | invoke t op hcall =>
      have hpc : (ofObject o).pc t = .idle := congrArg GuardedPc.ofCall hcall
      refine ⟨[(t, .invoke op)], _, rfl, Run.single ⟨(t, some op), ?_⟩, rfl⟩
      rw [← ofObject_goto o o.value]
      simp only [next, hpc]
      rfl
  | commit t op hcall => exact ⟨_, _, rfl, commit_run apply o hcall, rfl⟩
  | respond t res hcall =>
      have hpc : (ofObject o).pc t = .returning res := congrArg GuardedPc.ofCall hcall
      refine ⟨[(t, .respond res)], _, rfl, Run.single ⟨(t, none), ?_⟩, rfl⟩
      rw [← ofObject_goto o o.value]
      simp only [next, hpc]
      rfl

/-- **The mutex makes the object atomic.** Neither has a history that the other does not have. -/
theorem histories_eq (apply : Op → Q → Res × Q) (q : Q) :
    histories (Step apply) GuardedEvent.observe (Guarded.new q : Guarded ι Op Res Q) =
      histories (Object.Step apply) ObjectEvent.observe (Object.new q) :=
  Set.Subset.antisymm ((shows_forward apply).histories_subset ⟨.new q, rfl⟩)
    ((ofObject_runs apply).histories_subset rfl)

/-! ### Progress -/

/-- The thread that holds the mutex is never blocked. -/
theorem holder_next {t : ι} (h : (s.pc t).holds = true) : ∃ e s', s.next apply (t, none) = some (s', e) := by
  cases hpc : s.pc t <;> rw [hpc] at h <;> cases h
  case locked | loaded | unlocking =>
      simp only [next, hpc]
      exact ⟨_, _, rfl⟩

/-- Only a call at `lock()` waits, and only while another thread holds the mutex. -/
theorem blocked_iff (H : Exclusive s) {t : ι} :
    s.next apply (t, none) = none ↔
      s.pc t = .idle ∨ ∃ op t', s.pc t = .locking op ∧ t' ≠ t ∧ (s.pc t').holds = true := by
  constructor
  · intro h
    cases hpc : s.pc t with
    | idle => exact .inl rfl
    | locking op =>
        simp only [next, hpc] at h
        split at h
        · cases h
        · rename_i t' hguard
          have hholds := (H.guard t').mp hguard
          refine .inr ⟨op, t', rfl, ?_, hholds⟩
          rintro rfl
          rw [hpc] at hholds
          cases hholds
    | locked op | loaded op q | unlocking res | returning res =>
        simp only [next, hpc] at h
        cases h
  · rintro (hpc | ⟨op, t', hpc, -, hholds⟩)
    · simp only [next, hpc]
    · simp only [next, hpc, (H.guard t').mpr hholds]

/-- Some call can go on, unless there is none. -/
theorem exists_next (H : Exclusive s) {t : ι} (hbusy : s.pc t ≠ .idle) :
    ∃ t' e s', s.pc t' ≠ .idle ∧ s.next apply (t', none) = some (s', e) := by
  cases hnext : s.next apply (t, none) with
  | some r => exact ⟨t, r.2, r.1, hbusy, hnext⟩
  | none =>
      obtain hidle | ⟨op, t', -, -, hholds⟩ := (blocked_iff H).mp hnext
      · exact absurd hidle hbusy
      · have hholder : ∃ e s', s.next apply (t', none) = some (s', e) := holder_next hholds
        obtain ⟨e, s', hstep⟩ := hholder
        refine ⟨t', e, s', ?_, hstep⟩
        intro hidle
        rw [hidle] at hholds
        cases hholds

/-- A step that starts no call is one of those that the call of its thread still takes. -/
theorem remaining_step (h : Step apply s e s') (hinvoke : ∀ op, e.2 ≠ .invoke op) (t : ι) :
    (if e.1 = t then 1 else 0) + (s'.pc t).remaining = (s.pc t).remaining := by
  have hmove : ∀ t₁ x, e.1 = t₁ → s'.pc = Function.update s.pc t₁ x →
      1 + x.remaining = (s.pc t₁).remaining →
      (if e.1 = t then 1 else 0) + (s'.pc t).remaining = (s.pc t).remaining := by
    rintro t₁ x rfl hpc hx
    by_cases ht : e.1 = t
    · rw [if_pos ht, hpc, ← ht, Function.update_self, hx]
    · rw [if_neg ht, hpc, Function.update_of_ne (Ne.symm ht), Nat.zero_add]
  cases effect_of_step h with
  | invoke t op => exact absurd rfl (hinvoke op)
  | lock t op hpc => exact hmove t _ rfl rfl (by rw [hpc]; rfl)
  | load t op hpc => exact hmove t _ rfl rfl (by rw [hpc]; rfl)
  | store t op q hpc => exact hmove t _ rfl rfl (by rw [hpc]; rfl)
  | unlock t res hpc => exact hmove t _ rfl rfl (by rw [hpc]; rfl)
  | respond t res hpc => exact hmove t _ rfl rfl (by rw [hpc]; rfl)

/-- Without new calls, a thread takes the steps of the call that it is in. -/
theorem count_add_remaining {tr : List (ι × GuardedEvent Op Res)}
    (h : Run (Restrict (Step apply) fun _ e => ∀ op, e.2 ≠ .invoke op) s tr s') (t : ι) :
    tr.countP (·.1 = t) + (s'.pc t).remaining = (s.pc t).remaining := by
  induction h with
  | nil => rw [List.countP_nil, Nat.zero_add]
  | @snoc tr e u v _ hstep ih =>
      have hlast := remaining_step hstep.1 hstep.2 t
      rw [List.countP_append, List.countP_singleton]
      simp only [decide_eq_true_eq]
      omega

/-- While the thread that holds the mutex does nothing, a call at `lock()` stays there. -/
theorem stalled (H : Exclusive s) {t : ι} (ht : (s.pc t).holds = true)
    {tr : List (ι × GuardedEvent Op Res)} (h : Run (Step apply) s tr s') (hstop : ∀ e ∈ tr, e.1 ≠ t)
    {t' : ι} {op : Op} (hpc : s.pc t' = .locking op) : s'.pc t' = .locking op := by
  suffices hkeep : Exclusive s' ∧ (s'.pc t).holds = true ∧ s'.pc t' = .locking op from hkeep.2.2
  induction h with
  | nil => exact ⟨H, ht, hpc⟩
  | @snoc tr e u v _ hstep ih =>
      obtain ⟨Hu, hu, hpcu⟩ := ih fun e he => hstop e (List.mem_append_left _ he)
      have hne := hstop e (List.mem_append_right _ List.mem_cons_self)
      have hmove : ∀ t₁ x, e.1 = t₁ → v.pc = Function.update u.pc t₁ x → t₁ ≠ t' →
          Exclusive v ∧ (v.pc t).holds = true ∧ v.pc t' = .locking op := by
        rintro t₁ x rfl hv ht₁
        refine ⟨Hu.step hstep, ?_, ?_⟩
        · rw [hv, Function.update_of_ne hne.symm]
          exact hu
        · rw [hv, Function.update_of_ne ht₁.symm]
          exact hpcu
      have hother : ∀ t₁ x, u.pc t₁ = x → (∀ op, x ≠ .locking op) → t₁ ≠ t' := by
        rintro t₁ x hx hlocking rfl
        exact hlocking op (hx.symm.trans hpcu)
      cases effect_of_step hstep with
      | lock t₁ op' hpc₁ hguard =>
          -- the mutex is held
          rw [(Hu.guard t).mpr hu] at hguard
          cases hguard
      | invoke t₁ op' hpc₁ => exact hmove t₁ _ rfl rfl (hother t₁ _ hpc₁ (by simp))
      | load t₁ op' hpc₁ => exact hmove t₁ _ rfl rfl (hother t₁ _ hpc₁ (by simp))
      | store t₁ op' q hpc₁ => exact hmove t₁ _ rfl rfl (hother t₁ _ hpc₁ (by simp))
      | unlock t₁ res hpc₁ => exact hmove t₁ _ rfl rfl (hother t₁ _ hpc₁ (by simp))
      | respond t₁ res hpc₁ => exact hmove t₁ _ rfl rfl (hother t₁ _ hpc₁ (by simp))

end Guarded

end Transition

import SmallTrial.QueueInvariant

/-! `LockFreeQueue` is linearizable to the FIFO queue `LockBasedQueue`. The simulation relation is
the coupling invariant; the exchange of `(*p).next`, the exchange of `head` and the load that sees a
null `next` are the linearization points. -/

namespace SmallTrial.Queue

open Transition

variable {ι V : Type*} [DecidableEq ι]

abbrev Fifo (ι V : Type*) := Object ι (Op V) (Res V) (List V)

/-- What an event of the concrete queue does to the abstract list and to the calls on it. -/
def Answers (o : Fifo ι V) (e : Event ι V) (o' : Fifo ι V) : Prop :=
  match e with
  | .act t (.callEnqueue value _) =>
      o.call t = .idle ∧ o' = o.setCall t (.pending (.enqueue value))
  | .act t .callDequeue => o.call t = .idle ∧ o' = o.setCall t (.pending .dequeue)
  | .act t (.casNext true) => ∃ value, o.call t = .pending (.enqueue value) ∧
      o' = { o with value := o.value ++ [value] }.setCall t (.done .unit)
  | .act t (.casHead true) => ∃ value rest, o.call t = .pending .dequeue ∧
      o.value = value :: rest ∧
      o' = { o with value := rest }.setCall t (.done (.value (some value)))
  | .act t (.checkNull true) => o.call t = .pending .dequeue ∧ o.value = [] ∧
      o' = o.setCall t (.done (.value none))
  | .act t (.ret res) => o.call t = .done res ∧ o' = o.setCall t .idle
  | .act _ .fault => False
  | _ => o' = o

/-- What a history shows of an event: the calls and the returns. -/
def Event.observe : Event ι V → Option (ι × HistoryEvent (Op V) (Res V))
  | .act t (.callEnqueue value _) => some (t, .invoke (.enqueue value))
  | .act t .callDequeue => some (t, .invoke .dequeue)
  | .act t (.ret res) => some (t, .respond res)
  | _ => none

/-! ### The steps keep the coupling -/

namespace Coupled

variable {s s' : State ι V} {o : Fifo ι V} {l : List Addr} {h k : Nat}

/-- A step that moves one thread and leaves its call on the FIFO object where it is. -/
theorem stay (H : Coupled s o l h k) {t : ι} {x x' : Pc V} (hpc : s.pc t = x)
    (hx' : PcOk s.heap l h k x' (o.call t)) (hnew : x'.newNode = x.newNode)
    (hwon : x'.wonHead = x.wonHead) : Coupled (s.goto t x') o l h k := by
  simpa using H.goto hpc hx' hnew hwon

/-- Some coupling of `s'` answers the event `e`. -/
def Next (o : Fifo ι V) (e : Event ι V) (s' : State ι V) : Prop :=
  ∃ o' l' h' k', Coupled s' o' l' h' k' ∧ Answers o e o'

theorem next_enqueue (H : Coupled s o l h k) {t : ι} {q : Addr} {a : Act V}
    (hq : (s.pc t).newNode = some q) (hstep : s.threadStep t = some (s', a)) :
    Next o (.act t a) s' := by
  have hok := H.pcOk t
  rw [State.threadStep] at hstep
  cases hpc : s.pc t <;> rw [hpc] at hq hok hstep <;> cases hq
  case enqFirstLoad =>
      cases hstep
      exact ⟨o, l, h, k, H.stay hpc hok rfl rfl, rfl⟩
  case enqLoadTail =>
      cases hstep
      exact ⟨o, l, h, k, H.stay hpc ⟨hok, k, Nat.le_refl _, H.tail_eq⟩ rfl rfl, rfl⟩
  case enqCasNext p =>
      obtain ⟨hf, i, hi, rfl⟩ := hok
      have hk := H.tail_lt
      obtain ⟨b, v, hb, hnode, hderef⟩ := H.deref_eq (i := i) (by omega)
      simp only [hderef] at hstep
      by_cases hnull : l[i + 1]? = none
      · rw [if_pos hnull, Option.some.injEq, Prod.mk.injEq] at hstep
        obtain ⟨rfl, rfl⟩ := hstep
        obtain ⟨value, hcall, hlink⟩ := H.link hpc hderef hnull
        exact ⟨_, _, h, k, hlink, value, hcall, rfl⟩
      · rw [if_neg hnull, Option.some.injEq, Prod.mk.injEq] at hstep
        obtain ⟨rfl, rfl⟩ := hstep
        have hlt : i + 1 < l.length := by
          by_contra hge
          exact hnull (List.getElem?_eq_none (by omega))
        exact ⟨o, l, h, k, H.stay hpc ⟨hf, i, hi, hlt, rfl⟩ rfl rfl, rfl⟩
  case enqLoadNext p =>
      obtain ⟨hf, i, hi, hlt, rfl⟩ := hok
      obtain ⟨b, v, hb, hnode, hderef⟩ := H.deref_eq (i := i) (by omega)
      simp only [hderef, Option.some.injEq, Prod.mk.injEq] at hstep
      obtain ⟨rfl, rfl⟩ := hstep
      exact ⟨o, l, h, k, H.stay hpc ⟨hf, i, hi, hlt, rfl, rfl⟩ rfl rfl, rfl⟩
  case enqCasTail p n =>
      obtain ⟨hf, i, hi, hlt, rfl, rfl⟩ := hok
      by_cases htail : s.tail = l[i]?
      · simp only [if_pos htail, Option.some.injEq, Prod.mk.injEq] at hstep
        obtain ⟨rfl, rfl⟩ := hstep
        have hik : k = i :=
          (List.getElem?_inj H.tail_lt H.nodup).mp (H.tail_eq.symm.trans htail)
        subst hik
        exact ⟨o, l, h, k + 1, (H.swing hlt rfl).stay hpc hf rfl rfl, rfl⟩
      · simp only [if_neg htail, Option.some.injEq, Prod.mk.injEq] at hstep
        obtain ⟨rfl, rfl⟩ := hstep
        exact ⟨o, l, h, k, H.stay hpc hf rfl rfl, rfl⟩

theorem next_dequeue (H : Coupled s o l h k) {t : ι} {a : Act V}
    (hcall : o.call t = .pending .dequeue) (hstep : s.threadStep t = some (s', a)) :
    Next o (.act t a) s' := by
  have hok := H.pcOk t
  rw [State.threadStep] at hstep
  cases hpc : s.pc t <;> rw [hpc] at hok hstep
  case deqFirstLoad =>
      cases hstep
      exact ⟨o, l, h, k, H.stay hpc hok rfl rfl, rfl⟩
  case deqLoadHead =>
      cases hstep
      exact ⟨o, l, h, k, H.stay hpc ⟨hok, h, Nat.le_refl _, H.head_eq⟩ rfl rfl, rfl⟩
  case deqCheck p =>
      obtain ⟨-, i, hi, rfl⟩ := hok
      have hh := H.head_lt
      obtain ⟨b, v, hb, hnode, hderef⟩ := H.deref_eq (i := i) (by omega)
      simp only [hderef] at hstep
      by_cases hnull : l[i + 1]? = none
      · rw [if_pos hnull, Option.some.injEq, Prod.mk.injEq] at hstep
        obtain ⟨rfl, rfl⟩ := hstep
        -- a node without a successor is the last one, and `head` never passes it
        have hih : i = h := by
          have := List.getElem?_eq_none_iff.mp hnull
          omega
        subst hih
        exact ⟨_, l, i, k, H.goto hpc rfl rfl rfl, hcall, H.value_nil hnull, rfl⟩
      · rw [if_neg hnull, Option.some.injEq, Prod.mk.injEq] at hstep
        obtain ⟨rfl, rfl⟩ := hstep
        have hlt : i + 1 < l.length := by
          by_contra hge
          exact hnull (List.getElem?_eq_none (by omega))
        exact ⟨o, l, h, k, H.stay hpc ⟨hcall, i, hi, hlt, rfl⟩ rfl rfl, rfl⟩
  case deqLoadNext p =>
      obtain ⟨-, i, hi, hlt, rfl⟩ := hok
      obtain ⟨b, v, hb, hnode, hderef⟩ := H.deref_eq (i := i) (by omega)
      simp only [hderef, Option.some.injEq, Prod.mk.injEq] at hstep
      obtain ⟨rfl, rfl⟩ := hstep
      exact ⟨o, l, h, k, H.stay hpc ⟨hcall, i, hi, hlt, rfl, rfl⟩ rfl rfl, rfl⟩
  case deqCasHead p n =>
      by_cases hhead : s.head = p
      · simp only [if_pos hhead, Option.some.injEq, Prod.mk.injEq] at hstep
        obtain ⟨rfl, rfl⟩ := hstep
        obtain ⟨value, rest, hc, ho, hadv⟩ := H.advance hpc hhead
        exact ⟨_, l, h + 1, k, hadv, value, rest, hc, ho, rfl⟩
      · simp only [if_neg hhead, Option.some.injEq, Prod.mk.injEq] at hstep
        obtain ⟨rfl, rfl⟩ := hstep
        exact ⟨o, l, h, k, H.stay hpc hcall rfl rfl, rfl⟩
  case enqFirstLoad | enqLoadTail | enqCasNext | enqLoadNext | enqCasTail =>
      obtain ⟨_, hpending, _⟩ := (H.pcOk t).fresh (by rw [hpc]; rfl)
      exact absurd (hcall.symm.trans hpending) (by simp)
  case idle | ret => exact absurd (hcall.symm.trans hok) (by simp)
  case enqSwing | deqDrop => exact absurd (hcall.symm.trans hok.1) (by simp)
  case deqLoadTaken =>
      obtain ⟨_, _, _, _, _, _, _, hdone⟩ := hok
      exact absurd (hcall.symm.trans hdone) (by simp)
  case deqTake =>
      obtain ⟨_, _, _, _, _, _, _, hdone, _⟩ := hok
      exact absurd (hcall.symm.trans hdone) (by simp)
  case fault => exact hok.elim

theorem next_done (H : Coupled s o l h k) {t : ι} {a : Act V} {res : Res V}
    (hcall : o.call t = .done res) (hstep : s.threadStep t = some (s', a)) :
    Next o (.act t a) s' := by
  have hok := H.pcOk t
  rw [State.threadStep] at hstep
  cases hpc : s.pc t <;> rw [hpc] at hok hstep
  case enqSwing q p =>
      obtain ⟨hdone, i, hi, hlt, rfl, hq⟩ := hok
      by_cases htail : s.tail = l[i]?
      · simp only [if_pos htail, Option.some.injEq, Prod.mk.injEq] at hstep
        obtain ⟨rfl, rfl⟩ := hstep
        have hik : k = i :=
          (List.getElem?_inj H.tail_lt H.nodup).mp (H.tail_eq.symm.trans htail)
        subst hik
        exact ⟨o, l, h, k + 1, (H.swing hlt hq).stay hpc hdone rfl rfl, rfl⟩
      · simp only [if_neg htail, Option.some.injEq, Prod.mk.injEq] at hstep
        obtain ⟨rfl, rfl⟩ := hstep
        exact ⟨o, l, h, k, H.stay hpc hdone rfl rfl, rfl⟩
  case deqLoadTaken p =>
      obtain ⟨i, b, value, hi, rfl, hb, hv, hdone⟩ := hok
      have hh := H.head_lt
      obtain ⟨_, _, _, _, hderef⟩ := H.deref_eq (i := i) (by omega)
      simp only [hderef, Option.some.injEq, Prod.mk.injEq] at hstep
      obtain ⟨rfl, rfl⟩ := hstep
      exact ⟨o, l, h, k, H.stay hpc ⟨i, b, value, hi, rfl, hb, hv, hdone, hb⟩ rfl rfl, rfl⟩
  case deqTake p n =>
      obtain ⟨b, node, hderef, htake, hdone⟩ := H.take hpc
      simp only [hderef, Option.some.injEq, Prod.mk.injEq] at hstep
      obtain ⟨rfl, rfl⟩ := hstep
      rw [← hdone, Object.setCall_call] at htake
      exact ⟨o, l, h, k, htake, rfl⟩
  case deqDrop p res' =>
      obtain ⟨hdone, i, hi, rfl⟩ := hok
      have hh := H.head_lt
      obtain ⟨_, _, _, _, hderef⟩ := H.deref_eq (i := i) (by omega)
      simp only [hderef, Option.some.injEq, Prod.mk.injEq] at hstep
      obtain ⟨rfl, rfl⟩ := hstep
      exact ⟨o, l, h, k, H.stay hpc hdone rfl rfl, rfl⟩
  case ret res' =>
      cases hstep
      exact ⟨_, l, h, k, H.goto hpc rfl rfl rfl, hok, rfl⟩
  case enqFirstLoad | enqLoadTail | enqCasNext | enqLoadNext | enqCasTail =>
      obtain ⟨_, hpending, _⟩ := (H.pcOk t).fresh (by rw [hpc]; rfl)
      exact absurd (hcall.symm.trans hpending) (by simp)
  case idle | deqFirstLoad | deqLoadHead => exact absurd (hcall.symm.trans hok) (by simp)
  case deqCheck | deqLoadNext | deqCasHead => exact absurd (hcall.symm.trans hok.1) (by simp)
  case fault => exact hok.elim

theorem next_step (H : Coupled s o l h k) {e : Event ι V} (hstep : Step s e s') : Next o e s' := by
  cases hstep with
  | enqueue t value q _ hidle hq =>
      have hcall : o.call t = .idle := H.call_idle hidle
      exact ⟨_, l, h, k, H.callEnqueue hidle value hq, hcall, rfl⟩
  | dequeue t _ hidle =>
      have hcall : o.call t = .idle := H.call_idle hidle
      exact ⟨_, l, h, k, H.goto hidle rfl rfl rfl, hcall, rfl⟩
  | thread _ t a hthread =>
      rcases (H.pcOk t).call_cases with hidle | ⟨q, hq⟩ | hdeq | ⟨res, hdone⟩
      · rw [threadStep_idle hidle] at hthread
        cases hthread
      · exact H.next_enqueue hq hthread
      · exact H.next_dequeue hdeq hthread
      · exact H.next_done hdone hthread
  | dropStart => exact ⟨o, l, h, k, H.setLife _, rfl⟩
  | dropNode => exact ⟨o, l, h, k, H.setLife _, rfl⟩
  | dropEnd => exact ⟨o, l, h, k, H.setLife _, rfl⟩

end Coupled

/-- The simulation relation. -/
def Simulates (s : State ι V) (o : Fifo ι V) : Prop := ∃ l h k, Coupled s o l h k

theorem Simulates.step {s s' : State ι V} {o : Fifo ι V} {e : Event ι V} (hR : Simulates s o)
    (hstep : Step s e s') : ∃ o', Simulates s' o' ∧ Answers o e o' := by
  obtain ⟨l, h, k, H⟩ := hR
  obtain ⟨o', l', h', k', H', hanswers⟩ := H.next_step hstep
  exact ⟨o', ⟨l', h', k', H'⟩, hanswers⟩

/-! ### Histories -/

/-- Each answer is at most one step of the atomic object, with the same observation. -/
theorem Answers.answer {o o' : Fifo ι V} {e : Event ι V} (h : Answers o e o') :
    Answer (Object.Step LockBasedQueue.apply) ObjectEvent.observe o e.observe o' := by
  cases e with
  | dropStart | dropNode | dropEnd => exact .inl ⟨rfl, h⟩
  | act t a =>
      cases a with
      | callEnqueue value q =>
          obtain ⟨hcall, rfl⟩ := h
          exact .inr ⟨_, .invoke o t _ hcall, rfl⟩
      | callDequeue =>
          obtain ⟨hcall, rfl⟩ := h
          exact .inr ⟨_, .invoke o t _ hcall, rfl⟩
      | casNext ok =>
          cases ok with
          | false => exact .inl ⟨rfl, h⟩
          | true =>
              obtain ⟨value, hcall, rfl⟩ := h
              exact .inr ⟨_, .commit o t _ hcall, rfl⟩
      | casHead ok =>
          cases ok with
          | false => exact .inl ⟨rfl, h⟩
          | true =>
              obtain ⟨value, rest, hcall, hvalue, rfl⟩ := h
              refine .inr ⟨(t, .commit .dequeue (.value (some value))), ?_, rfl⟩
              have hcommit : Object.Step LockBasedQueue.apply o _ _ := .commit o t _ hcall
              rwa [hvalue] at hcommit
      | checkNull null =>
          cases null with
          | false => exact .inl ⟨rfl, h⟩
          | true =>
              obtain ⟨hcall, hvalue, rfl⟩ := h
              refine .inr ⟨(t, .commit .dequeue (.value none)), ?_, rfl⟩
              have hcommit : Object.Step LockBasedQueue.apply o _ _ := .commit o t _ hcall
              obtain ⟨_, call⟩ := o
              cases hvalue
              exact hcommit
      | ret res =>
          obtain ⟨hcall, rfl⟩ := h
          exact .inr ⟨_, .respond o t _ hcall, rfl⟩
      | load | casTail | take | dropInPlace => exact .inl ⟨rfl, h⟩
      | fault => exact h.elim

theorem simulates_forward : ForwardSimulation Step Event.observe
    (Object.Step LockBasedQueue.apply) ObjectEvent.observe (Simulates (ι := ι) (V := V)) := by
  intro s e s' o hR hstep
  obtain ⟨o', hR', hanswers⟩ := hR.step hstep
  exact ⟨o', hR', hanswers.answer⟩

/-- The values the calls of a sequential execution put in, in order. -/
def enqueued (log : List (Op V × Res V)) : List V :=
  log.filterMap fun
    | (.enqueue value, _) => some value
    | _ => none

/-- The values the calls of a sequential execution took out, in order. -/
def dequeued (log : List (Op V × Res V)) : List V :=
  log.filterMap fun
    | (.dequeue, .value res) => res
    | _ => none

/-- **FIFO.** What was in the list and was put in is what was taken out and is still in the list. -/
theorem LockBasedQueue.executes_fifo {q q' : List V} {log : List (Op V × Res V)}
    (h : Executes LockBasedQueue.apply q log q') : q ++ enqueued log = dequeued log ++ q' := by
  induction h with
  | nil => exact List.append_nil q
  | @snoc log r op _ ih =>
      unfold enqueued dequeued at ih ⊢
      rw [List.filterMap_append, List.filterMap_append, ← List.append_assoc, ih]
      cases op with
      | enqueue value => simp [LockBasedQueue.apply, LockBasedQueue.enqueue]
      | dequeue => cases r <;> simp [LockBasedQueue.apply, LockBasedQueue.dequeue]

/-- The results thread `t` returned, oldest first. -/
def returnsOf (t : ι) (tr : List (Event ι V)) : List (Res V) :=
  tr.filterMap fun
    | .act t' (.ret res) => if t' = t then some res else none
    | _ => none

/-- A call that has taken effect keeps its result until it returns it. -/
theorem Answers.keeps_done {o o' : Fifo ι V} {e : Event ι V} (h : Answers o e o') {t : ι} {res : Res V}
    (hdone : o.call t = .done res) :
    (returnsOf t [e] = [] ∧ o'.call t = .done res) ∨ returnsOf t [e] = [res] := by
  have hother : ∀ t' y, t' ≠ t → (o.setCall t' y).call t = .done res := fun t' y ht =>
    (o.setCall_of_ne y (Ne.symm ht)).trans hdone
  have hpending : ∀ t' op, o.call t' = .pending op → t' ≠ t := by
    rintro t' op hcall rfl
    cases hcall.symm.trans hdone
  cases e with
  | dropStart | dropNode | dropEnd =>
      cases h
      exact .inl ⟨rfl, hdone⟩
  | act t' a =>
      cases a with
      | callEnqueue | callDequeue =>
          obtain ⟨hcall, rfl⟩ := h
          refine .inl ⟨rfl, hother t' _ ?_⟩
          rintro rfl
          cases hcall.symm.trans hdone
      | casNext ok =>
          cases ok with
          | false =>
              cases h
              exact .inl ⟨rfl, hdone⟩
          | true =>
              obtain ⟨value, hcall, rfl⟩ := h
              exact .inl ⟨rfl, hother t' _ (hpending t' _ hcall)⟩
      | casHead ok =>
          cases ok with
          | false =>
              cases h
              exact .inl ⟨rfl, hdone⟩
          | true =>
              obtain ⟨value, rest, hcall, hvalue, rfl⟩ := h
              exact .inl ⟨rfl, hother t' _ (hpending t' _ hcall)⟩
      | checkNull null =>
          cases null with
          | false =>
              cases h
              exact .inl ⟨rfl, hdone⟩
          | true =>
              obtain ⟨hcall, hvalue, rfl⟩ := h
              exact .inl ⟨rfl, hother t' _ (hpending t' _ hcall)⟩
      | ret res' =>
          obtain ⟨hcall, rfl⟩ := h
          by_cases ht : t' = t
          · subst ht
            cases hcall.symm.trans hdone
            exact .inr (by simp [returnsOf])
          · exact .inl ⟨by simp [returnsOf, ht], hother t' _ ht⟩
      | load | casTail | take | dropInPlace =>
          cases h
          exact .inl ⟨rfl, hdone⟩
      | fault => exact h.elim

/-- Whatever the other threads do, the next result a thread returns is the one its call has. -/
theorem Simulates.next_return {s s' : State ι V} {o : Fifo ι V} (hR : Simulates s o) {t : ι}
    {res : Res V} (hdone : o.call t = .done res) {tr : List (Event ι V)} (h : Run Step s tr s') :
    ∃ o', Simulates s' o' ∧
      ((returnsOf t tr = [] ∧ o'.call t = .done res) ∨ (returnsOf t tr).head? = some res) := by
  induction h with
  | nil => exact ⟨o, hR, .inl ⟨rfl, hdone⟩⟩
  | @snoc tr e _ _ _ hstep ih =>
      obtain ⟨o₁, hR₁, hcase⟩ := ih
      obtain ⟨o₂, hR₂, hanswers⟩ := hR₁.step hstep
      have happend : returnsOf t (tr ++ [e]) = returnsOf t tr ++ returnsOf t [e] :=
        List.filterMap_append
      refine ⟨o₂, hR₂, ?_⟩
      rw [happend]
      rcases hcase with ⟨hnil, hdone₁⟩ | hhead
      · rw [hnil, List.nil_append]
        rcases hanswers.keeps_done hdone₁ with hkeep | hret
        · exact .inl hkeep
        · exact .inr (by rw [hret, List.head?_cons])
      · exact .inr (by rw [List.head?_append, hhead, Option.some_or])

/-- **`LockFreeQueue` is linearizable to `LockBasedQueue`.** There is a forward simulation in which
the exchange of `(*p).next` appends the value of its call, the exchange of `head` removes the front
value, which its call later returns, a null `next` is seen while the list is empty, and all other
steps leave the list alone. So the history of every run is linearizable, and in the order of the
linearization points the values taken out are the first of the values put in. -/
theorem lockFreeQueue_linearizable (p : Addr) :
    ∃ R : State ι V → Fifo ι V → Prop,
      R (State.new p) (Object.new LockBasedQueue.new) ∧
      (∀ s o e s', R s o → Step s e s' → ∃ o', R s' o' ∧ Answers o e o') ∧
      (∀ s o t res, R s o → o.call t = .done res → ∀ tr s', Run Step s tr s' →
        ∀ r ∈ (returnsOf t tr).head?, r = res) ∧
      ∀ tr s, Run Step (State.new p) tr s →
        Linearizable LockBasedQueue.apply LockBasedQueue.new (tr.filterMap Event.observe) ∧
        ∃ o trA, R s o ∧
          Run (Object.Step LockBasedQueue.apply) (Object.new LockBasedQueue.new) trA o ∧
          trA.filterMap ObjectEvent.observe = tr.filterMap Event.observe ∧
          enqueued (commits trA) = dequeued (commits trA) ++ o.value := by
  have hinit : Simulates (State.new p : State ι V) (Object.new LockBasedQueue.new) :=
    ⟨[p], 0, 0, Coupled.init p⟩
  refine ⟨Simulates, hinit, fun s o e s' hR hstep => hR.step hstep, ?_, ?_⟩
  · intro s o t res hR hdone tr s' hrun r hr
    obtain ⟨_, _, ⟨hnil, -⟩ | hhead⟩ := hR.next_return hdone hrun
    · rw [hnil] at hr
      cases hr
    · rw [hhead] at hr
      exact (Option.some.inj hr).symm
  · intro tr s hrun
    obtain ⟨o, trA, hR, hrunA, hobs⟩ := simulates_forward.run hinit hrun
    refine ⟨⟨trA, o, hrunA, hobs⟩, o, trA, hR, hrunA, hobs, ?_⟩
    exact LockBasedQueue.executes_fifo (Object.Step.executes_commits hrunA)

end SmallTrial.Queue

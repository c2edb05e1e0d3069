import SmallTrial.QueueLinearizable
import SmallTrial.TransitionRetry

/-! Lock-freedom of `LockFreeQueue`. `tail` and `head` only move to the next node of the chain. The
loops of `enqueue` and `dequeue` are optimistic loops on `tail` and on `head`, so an iteration fails
only because the pointer has moved; and a thread that runs alone meets a pointer that lags behind by
at most one node, which it moves itself. -/

namespace SmallTrial.Queue

open Transition

variable {ι V : Type*}

/-- The loop of `enqueue`, whose iterations load `tail`. -/
@[simp] def Pc.enqueueLoop : Pc V → LoopPos Ptr
  | .enqFirstLoad _ => .before
  | .enqLoadTail _ => .head
  | .enqCasNext _ p | .enqLoadNext _ p | .enqCasTail _ p _ => .inside p
  | _ => .outside

/-- The loop of `dequeue`, whose iterations load `head`. -/
@[simp] def Pc.dequeueLoop : Pc V → LoopPos Ptr
  | .deqFirstLoad => .before
  | .deqLoadHead => .head
  | .deqCheck p | .deqLoadNext p | .deqCasHead p _ => .inside p
  | _ => .outside

def enqueueLoop (t : ι) (s : State ι V) : LoopPos Ptr := (s.pc t).enqueueLoop

def dequeueLoop (t : ι) (s : State ι V) : LoopPos Ptr := (s.pc t).dequeueLoop

/-- `p` points to a node whose `next` is not null, and `p'` is that `next`. -/
def Follows (s : State ι V) (p p' : Ptr) : Prop :=
  ∃ a node b, p = some a ∧ s.heap a = some node ∧ node.next = some b ∧ p' = some b

/-- The steps of thread `t` while all other threads are stopped. -/
def Solo [DecidableEq ι] (t : ι) (s : State ι V) (e : Event ι V) (s' : State ι V) : Prop :=
  ∃ a, e = .act t a ∧ s.threadStep t = some (s', a)

/-- The iteration a thread is in the middle of, if any. -/
@[simp] def current (x : LoopPos Ptr) : Nat :=
  match x with
  | .inside _ => 1
  | _ => 0

/-! ### What a step does to the loops -/

namespace Shape

variable {s : State ι V} {l : List Addr} {h k : Nat}

theorem follows (H : Shape s l h k) {i : Nat} (hi : i + 1 < l.length) :
    Follows s l[i]? l[i + 1]? := by
  obtain ⟨a, value, ha, hnode, -⟩ := H.deref_eq (i := i) (by omega)
  obtain ⟨b, hb⟩ : ∃ b, l[i + 1]? = some b := ⟨_, List.getElem?_eq_getElem hi⟩
  exact ⟨a, _, b, ha, hnode, hb, hb⟩

theorem next_ne (H : Shape s l h k) {i : Nat} (hi : i + 1 < l.length) : l[i + 1]? ≠ l[i]? := by
  intro heq
  have := (List.getElem?_inj hi H.nodup).mp heq
  omega

/-- `tail` is exchanged with the pointer behind `p`, `p` being `tail` still. -/
theorem moves (H : Shape s l h k) {i : Nat} (hi : i + 1 < l.length) {p : Ptr} (hp : p = l[i]?) :
    Follows s p l[i + 1]? ∧ l[i + 1]? ≠ p := by
  rw [hp]
  exact ⟨H.follows hi, H.next_ne hi⟩

end Shape

variable [DecidableEq ι]

/-- What a step may do to a pointer and to the loop of its thread on that pointer. -/
def LoopOk (s : State ι V) (ptr ptr' : Ptr) (x x' : LoopPos Ptr) : Prop :=
  LoopStep ptr ptr' x x' ∧ (ptr' = ptr ∨ Follows s ptr ptr' ∧ x'.isInside = false)

namespace Coupled

variable {s s' : State ι V} {o : Fifo ι V} {l : List Addr} {h k : Nat}

theorem enqueue_loop (H : Coupled s o l h k) {t : ι} {a : Act V}
    (hstep : s.threadStep t = some (s', a)) :
    LoopOk s s.tail s'.tail (enqueueLoop t s) (enqueueLoop t s') := by
  have hok := H.pcOk t
  unfold enqueueLoop
  rw [State.threadStep] at hstep
  cases hpc : s.pc t <;> rw [hpc] at hok hstep <;> dsimp only at hstep
  case idle | fault => cases hstep
  case enqFirstLoad q =>
      cases hstep
      rw [goto_pc, Function.update_self]
      exact ⟨.enter, .inl rfl⟩
  case enqLoadTail q =>
      cases hstep
      rw [goto_pc, Function.update_self]
      exact ⟨.load rfl, .inl rfl⟩
  case enqCasNext q p =>
      split at hstep
      · cases hstep
        rw [goto_pc, Function.update_self]
        exact ⟨.leave p, .inl rfl⟩
      · split at hstep <;> cases hstep <;> rw [goto_pc, Function.update_self]
        · exact ⟨.leave p, .inl rfl⟩
        · exact ⟨.stay _, .inl rfl⟩
  case enqLoadNext q p =>
      split at hstep <;> cases hstep <;> rw [goto_pc, Function.update_self]
      · exact ⟨.leave p, .inl rfl⟩
      · exact ⟨.stay _, .inl rfl⟩
  case enqCasTail q p n =>
      obtain ⟨-, i, -, hlt, rfl, rfl⟩ := hok
      split at hstep <;> cases hstep <;> rw [goto_pc, Function.update_self]
      · rename_i htail
        obtain ⟨hfollows, hne⟩ := H.moves hlt htail
        exact ⟨.retry _ (.inr hne), .inr ⟨hfollows, rfl⟩⟩
      · rename_i htail
        exact ⟨.retry _ (.inl htail), .inl rfl⟩
  case enqSwing q p =>
      obtain ⟨-, i, -, hlt, rfl, hq⟩ := hok
      split at hstep <;> cases hstep <;> rw [goto_pc, Function.update_self]
      · rename_i htail
        rw [hq]
        exact ⟨.stay _, .inr ⟨(H.moves hlt htail).1, rfl⟩⟩
      · exact ⟨.stay _, .inl rfl⟩
  case deqCheck p =>
      split at hstep
      · cases hstep
        rw [goto_pc, Function.update_self]
        exact ⟨.stay _, .inl rfl⟩
      · split at hstep <;> cases hstep <;> rw [goto_pc, Function.update_self] <;>
          exact ⟨.stay _, .inl rfl⟩
  case deqFirstLoad | deqLoadHead | ret =>
      cases hstep
      rw [goto_pc, Function.update_self]
      exact ⟨.stay _, .inl rfl⟩
  case deqLoadNext | deqCasHead | deqLoadTaken | deqTake | deqDrop =>
      split at hstep <;> cases hstep <;> rw [goto_pc, Function.update_self] <;>
        exact ⟨.stay _, .inl rfl⟩

theorem dequeue_loop (H : Coupled s o l h k) {t : ι} {a : Act V}
    (hstep : s.threadStep t = some (s', a)) :
    LoopOk s s.head s'.head (dequeueLoop t s) (dequeueLoop t s') := by
  have hok := H.pcOk t
  unfold dequeueLoop
  rw [State.threadStep] at hstep
  cases hpc : s.pc t <;> rw [hpc] at hok hstep <;> dsimp only at hstep
  case idle | fault => cases hstep
  case deqFirstLoad =>
      cases hstep
      rw [goto_pc, Function.update_self]
      exact ⟨.enter, .inl rfl⟩
  case deqLoadHead =>
      cases hstep
      rw [goto_pc, Function.update_self]
      exact ⟨.load rfl, .inl rfl⟩
  case deqCheck p =>
      split at hstep
      · cases hstep
        rw [goto_pc, Function.update_self]
        exact ⟨.leave p, .inl rfl⟩
      · split at hstep <;> cases hstep <;> rw [goto_pc, Function.update_self]
        · exact ⟨.leave p, .inl rfl⟩
        · exact ⟨.stay _, .inl rfl⟩
  case deqLoadNext p =>
      split at hstep <;> cases hstep <;> rw [goto_pc, Function.update_self]
      · exact ⟨.leave p, .inl rfl⟩
      · exact ⟨.stay _, .inl rfl⟩
  case deqCasHead p n =>
      obtain ⟨-, i, -, hlt, rfl, rfl⟩ := hok
      split at hstep <;> cases hstep <;> rw [goto_pc, Function.update_self]
      · rename_i hhead
        exact ⟨.leave _, .inr ⟨(H.moves hlt hhead).1, rfl⟩⟩
      · rename_i hhead
        exact ⟨.retry _ (.inl hhead), .inl rfl⟩
  case enqCasNext p =>
      split at hstep
      · cases hstep
        rw [goto_pc, Function.update_self]
        exact ⟨.stay _, .inl rfl⟩
      · split at hstep <;> cases hstep <;> rw [goto_pc, Function.update_self] <;>
          exact ⟨.stay _, .inl rfl⟩
  case enqFirstLoad | enqLoadTail | ret =>
      cases hstep
      rw [goto_pc, Function.update_self]
      exact ⟨.stay _, .inl rfl⟩
  case enqLoadNext | enqCasTail | enqSwing | deqLoadTaken | deqTake | deqDrop =>
      split at hstep <;> cases hstep <;> rw [goto_pc, Function.update_self] <;>
        exact ⟨.stay _, .inl rfl⟩

/-- What a step of the system may do to a shared pointer, and to the loop of a thread on it. -/
theorem loop_step {ptr : State ι V → Ptr} {pos : Pc V → LoopPos Ptr} {e : Event ι V}
    (hshared : ∀ s s' : State ι V, s'.head = s.head → s'.tail = s.tail → ptr s' = ptr s)
    (henqueue : ∀ q p, LoopStep p p (pos .idle) (pos (.enqFirstLoad q)))
    (hdequeue : ∀ p, LoopStep p p (pos .idle) (pos .deqFirstLoad))
    (hthread : ∀ t a, s.threadStep t = some (s', a) →
      LoopOk s (ptr s) (ptr s') (pos (s.pc t)) (pos (s'.pc t)))
    (hstep : Step s e s') (t : ι) :
    LoopStep (ptr s) (ptr s') (pos (s.pc t)) (pos (s'.pc t)) ∧
      (ptr s' = ptr s ∨ Follows s (ptr s) (ptr s') ∧
        ∃ t' a, e = .act t' a ∧ (pos (s'.pc t')).isInside = false) := by
  have hother : ∀ {t' x}, s'.pc = Function.update s.pc t' x → t ≠ t' →
      LoopStep (ptr s) (ptr s') (pos (s.pc t)) (pos (s'.pc t)) := by
    intro t' x hpc hne
    rw [hpc, Function.update_of_ne hne]
    exact .stay _
  have hcall : ∀ {t' x}, s.pc t' = .idle → (∀ p, LoopStep p p (pos .idle) (pos x)) →
      s'.pc = Function.update s.pc t' x → ptr s' = ptr s →
      LoopStep (ptr s) (ptr s') (pos (s.pc t)) (pos (s'.pc t)) := by
    intro t' x hidle hx hpc hptr
    by_cases ht : t = t'
    · rw [ht, hpc, Function.update_self, hidle, hptr]
      exact hx _
    · exact hother hpc ht
  cases hstep with
  | enqueue t' value q _ hidle _ =>
      have hptr := hshared s (s.callEnqueue t' value q) rfl rfl
      exact ⟨hcall hidle (henqueue q) rfl hptr, .inl hptr⟩
  | dequeue t' _ hidle =>
      have hptr := hshared s (s.callDequeue t') rfl rfl
      exact ⟨hcall hidle hdequeue rfl hptr, .inl hptr⟩
  | thread _ t' a hstep =>
      obtain ⟨x, hpc⟩ := threadStep_pc hstep
      obtain ⟨hloop, hptr⟩ := hthread t' a hstep
      refine ⟨?_, hptr.imp_right fun hmoves => ⟨hmoves.1, t', a, rfl, hmoves.2⟩⟩
      by_cases ht : t = t'
      · rw [ht]
        exact hloop
      · exact hother hpc ht
  | dropStart | dropNode | dropEnd => exact ⟨.stay _, .inl (hshared s _ rfl rfl)⟩

theorem tail_loop (H : Coupled s o l h k) {e : Event ι V} (hstep : Step s e s') (t : ι) :
    LoopStep s.tail s'.tail (enqueueLoop t s) (enqueueLoop t s') ∧
      (s'.tail = s.tail ∨ Follows s s.tail s'.tail ∧
        ∃ t' a, e = .act t' a ∧ (enqueueLoop t' s').isInside = false) :=
  loop_step (fun _ _ _ htail => htail) (fun _ _ => .call) (fun _ => .stay _)
    (fun _ _ => H.enqueue_loop) hstep t

theorem head_loop (H : Coupled s o l h k) {e : Event ι V} (hstep : Step s e s') (t : ι) :
    LoopStep s.head s'.head (dequeueLoop t s) (dequeueLoop t s') ∧
      (s'.head = s.head ∨ Follows s s.head s'.head ∧
        ∃ t' a, e = .act t' a ∧ (dequeueLoop t' s').isInside = false) :=
  loop_step (fun _ _ hhead _ => hhead) (fun _ _ => .stay _) (fun _ => .call)
    (fun _ _ => H.dequeue_loop) hstep t

end Coupled

/-! ### Running alone -/

/-- The state meets the invariant of the queue. -/
def Sound (s : State ι V) : Prop := ∃ o l h k, Coupled s o l h k

theorem Sound.next {s s' : State ι V} {e : Event ι V} (hS : Sound s) (hstep : Step s e s') :
    Sound s' := by
  obtain ⟨o, l, h, k, H⟩ := hS
  obtain ⟨o', l', h', k', H', -⟩ := H.next_step hstep
  exact ⟨o', l', h', k', H'⟩

theorem Sound.tail_loop {s s' : State ι V} {e : Event ι V} (hS : Sound s) (hstep : Step s e s') (t : ι) :
    LoopStep s.tail s'.tail (enqueueLoop t s) (enqueueLoop t s') ∧
      (s'.tail = s.tail ∨ Follows s s.tail s'.tail) := by
  obtain ⟨o, l, h, k, H⟩ := hS
  obtain ⟨hloop, hmoves⟩ := H.tail_loop hstep t
  exact ⟨hloop, hmoves.imp_right And.left⟩

theorem Sound.head_loop {s s' : State ι V} {e : Event ι V} (hS : Sound s) (hstep : Step s e s') (t : ι) :
    LoopStep s.head s'.head (dequeueLoop t s) (dequeueLoop t s') ∧
      (s'.head = s.head ∨ Follows s s.head s'.head ∧
        ∃ t' a, e = .act t' a ∧ (dequeueLoop t' s').isInside = false) := by
  obtain ⟨o, l, h, k, H⟩ := hS
  exact H.head_loop hstep t

theorem Sound.thread {s s' : State ι V} {t : ι} {a : Act V} (hS : Sound s)
    (hstep : s.threadStep t = some (s', a)) : Sound s' := hS.next (.thread s s' t a hstep)

/-- The pointer a thread is about to follow. -/
def Pc.pointer : Pc V → Option Ptr
  | .enqCasNext _ p | .enqLoadNext _ p => some p
  | .deqCheck p | .deqLoadNext p | .deqLoadTaken p | .deqDrop p _ => some p
  | _ => none

omit [DecidableEq ι] in
/-- No thread is about to follow a null or dangling pointer. -/
theorem Sound.deref {s : State ι V} (hS : Sound s) {t : ι} {p : Ptr} (hp : (s.pc t).pointer = some p) :
    ∃ a node, s.deref p = some (a, node) := by
  obtain ⟨o, l, h, k, H⟩ := hS
  have hhead := H.head_lt
  have htail := H.tail_lt
  obtain ⟨i, hi, rfl⟩ : ∃ i, i < l.length ∧ p = l[i]? := by
    have hok := H.pcOk t
    cases hpc : s.pc t <;> rw [hpc] at hok hp <;> cases hp
    case enqCasNext =>
        obtain ⟨-, i, hi, rfl⟩ := hok
        exact ⟨i, by omega, rfl⟩
    case enqLoadNext | deqLoadNext =>
        obtain ⟨-, i, -, hlt, rfl⟩ := hok
        exact ⟨i, by omega, rfl⟩
    case deqCheck | deqDrop =>
        obtain ⟨-, i, hi, rfl⟩ := hok
        exact ⟨i, by omega, rfl⟩
    case deqLoadTaken =>
        obtain ⟨i, -, -, hi, rfl, -⟩ := hok
        exact ⟨i, by omega, rfl⟩
  obtain ⟨a, value, -, -, hderef⟩ := H.deref_eq hi
  exact ⟨a, _, hderef⟩

/-- Alone, the thread returns after it has started at most `m` more iterations of the loop of
`enqueue` and `n` of that of `dequeue`. -/
def Finishes (t : ι) (s : State ι V) (m n : Nat) : Prop :=
  ∃ solo s', Run (Recorded (Solo t)) s solo s' ∧ s'.pc t = .idle ∧
    solo.countP (Stage.starts (enqueueLoop t)) ≤ m ∧ solo.countP (Stage.starts (dequeueLoop t)) ≤ n

section Alone

variable {s s' : State ι V} {t : ι} {a : Act V} {m n : Nat}

theorem Finishes.mono {m' n' : Nat} (h : Finishes t s m n) (hm : m ≤ m') (hn : n ≤ n') :
    Finishes t s m' n' := by
  obtain ⟨solo, s', hrun, hidle, hm', hn'⟩ := h
  exact ⟨solo, s', hrun, hidle, by omega, by omega⟩

theorem Finishes.idle (h : s.pc t = .idle) : Finishes t s 0 0 :=
  ⟨[], s, .nil, h, Nat.le_refl 0, Nat.le_refl 0⟩

/-- The first step of a thread that runs alone starts at most one iteration of each loop. -/
theorem Finishes.step (hstep : s.threadStep t = some (s', a)) (h : Finishes t s' m n) {i j : Nat}
    (hi : ((enqueueLoop t s).starts (enqueueLoop t s')).toNat ≤ i)
    (hj : ((dequeueLoop t s).starts (dequeueLoop t s')).toNat ≤ j) :
    Finishes t s (m + i) (n + j) := by
  obtain ⟨solo, u, hrun, hidle, hm, hn⟩ := h
  have hcount : ∀ b : Bool, (if b = true then 1 else 0) = b.toNat := by rintro (_ | _) <;> rfl
  refine ⟨⟨s, .act t a, s'⟩ :: solo, u, hrun.cons ⟨rfl, ⟨a, rfl, hstep⟩, rfl⟩, hidle, ?_, ?_⟩
  · rw [List.countP_cons, Stage.starts, hcount]
    exact Nat.add_le_add hm hi
  · rw [List.countP_cons, Stage.starts, hcount]
    exact Nat.add_le_add hn hj

/-- A step outside the heads of the loops starts no iteration. -/
theorem Finishes.stay {x : Pc V} (hpc : s.pc t = x) (hstep : s.threadStep t = some (s', a))
    (h : Finishes t s' m n) (he : x.enqueueLoop.isHead = false) (hd : x.dequeueLoop.isHead = false) :
    Finishes t s m n := by
  refine h.step hstep (i := 0) (j := 0) ?_ ?_
  · rw [enqueueLoop, hpc, LoopPos.starts_eq_false he]
    rfl
  · rw [dequeueLoop, hpc, LoopPos.starts_eq_false hd]
    rfl

theorem goto_self (s : State ι V) (t : ι) (x : Pc V) : (s.goto t x).pc t = x := Function.update_self ..

theorem finishes_ret {res : Res V} (hpc : s.pc t = .ret res) : Finishes t s 0 0 := by
  have hstep : s.threadStep t = some (s.goto t .idle, .ret res) := by rw [State.threadStep, hpc]
  exact .stay hpc hstep (.idle (goto_self ..)) rfl rfl

/-! #### `enqueue` -/

/-- The node at `p` is the last one. -/
def IsLast (s : State ι V) (p : Ptr) : Prop := ∃ a node, s.deref p = some (a, node) ∧ node.next = none

/-- The last exchange of `tail` ends the call whether it succeeds or not. -/
theorem finishes_enqSwing {q : Addr} {p : Ptr} (hpc : s.pc t = .enqSwing q p) : Finishes t s 0 0 := by
  have hstep : ∃ s' a, s.threadStep t = some (s', a) ∧ s'.pc t = .ret .unit := by
    rw [State.threadStep, hpc]
    by_cases htail : s.tail = p
    · exact ⟨_, _, if_pos htail, goto_self ..⟩
    · exact ⟨_, _, if_neg htail, goto_self ..⟩
  obtain ⟨s', a, hstep, hret⟩ := hstep
  exact .stay hpc hstep (finishes_ret hret) rfl rfl

theorem finishes_enqCasNext_last {q : Addr} {p : Ptr} (hpc : s.pc t = .enqCasNext q p)
    (hlast : IsLast s p) : Finishes t s 0 0 := by
  obtain ⟨a, node, hderef, hnull⟩ := hlast
  have hstep : s.threadStep t =
      some ((s.store a { node with next := some q }).goto t (.enqSwing q p), .casNext true) := by
    rw [State.threadStep, hpc]
    simp only [hderef, if_pos hnull]
  exact .stay hpc hstep (finishes_enqSwing (goto_self ..)) rfl rfl

theorem step_enqLoadTail {q : Addr} (hpc : s.pc t = .enqLoadTail q)
    (h : Finishes t (s.goto t (.enqCasNext q s.tail)) m 0) : Finishes t s (m + 1) 0 := by
  have hstep : s.threadStep t = some (s.goto t (.enqCasNext q s.tail), .load) := by
    rw [State.threadStep, hpc]
  have hout : (Pc.enqLoadTail q : Pc V).dequeueLoop.isHead = false := rfl
  refine h.step hstep (i := 1) (j := 0) (Bool.toNat_le _) ?_
  rw [dequeueLoop, hpc, LoopPos.starts_eq_false hout]
  rfl

/-- With `tail` at the last node, the next iteration links the new node. -/
theorem finishes_enqLoadTail_last {q : Addr} (hpc : s.pc t = .enqLoadTail q)
    (hlast : IsLast s s.tail) : Finishes t s 1 0 :=
  step_enqLoadTail hpc (finishes_enqCasNext_last (goto_self ..) hlast)

/-- The next iteration links the new node, or moves `tail` to the last node for the iteration after
it. -/
theorem finishes_enqLoadTail {q : Addr} (hS : Sound s) (hpc : s.pc t = .enqLoadTail q) :
    Finishes t s 2 0 := by
  obtain ⟨o, l, h, k, H⟩ := hS
  obtain ⟨b, v, hb, hnode, hderef⟩ := H.deref_eq H.tail_lt
  rw [← H.tail_eq] at hderef
  by_cases hnull : l[k + 1]? = none
  · exact (finishes_enqLoadTail_last hpc ⟨b, _, hderef, hnull⟩).mono (by decide) (Nat.le_refl 0)
  · have hlt : k + 1 < l.length := by
      by_contra hge
      exact hnull (List.getElem?_eq_none (by omega))
    -- the three steps of the iteration: the exchange fails, `next` is loaded, `tail` is moved
    set s₁ := s.goto t (.enqCasNext q s.tail) with hs₁
    set s₂ := s₁.goto t (.enqLoadNext q s.tail) with hs₂
    set s₃ := s₂.goto t (.enqCasTail q s.tail l[k + 1]?) with hs₃
    set s₄ := ({ s₃ with tail := l[k + 1]? } : State ι V).goto t (.enqLoadTail q) with hs₄
    have hstep₁ : s₁.threadStep t = some (s₂, .casNext false) := by
      have hderef₁ : s₁.deref s.tail = some (b, ⟨v, l[k + 1]?⟩) := hderef
      rw [State.threadStep, hs₁, goto_self, ← hs₁]
      simp only [hderef₁, if_neg hnull, hs₂]
    have hstep₂ : s₂.threadStep t = some (s₃, .load) := by
      have hderef₂ : s₂.deref s.tail = some (b, ⟨v, l[k + 1]?⟩) := hderef
      rw [State.threadStep, hs₂, goto_self, ← hs₂]
      simp only [hderef₂, hs₃]
    have hstep₃ : s₃.threadStep t = some (s₄, .casTail true) := by
      rw [State.threadStep, hs₃, goto_self, ← hs₃]
      exact if_pos rfl
    have hlast : IsLast s₄ s₄.tail := by
      obtain ⟨b', v', hb', hnode', hderef'⟩ := H.deref_eq hlt
      have hlag := H.tail_lag
      exact ⟨b', _, hderef', List.getElem?_eq_none (by omega)⟩
    have h₄ : Finishes t s₄ 1 0 := finishes_enqLoadTail_last (goto_self ..) hlast
    have h₃ : Finishes t s₃ 1 0 := .stay (goto_self ..) hstep₃ h₄ rfl rfl
    have h₂ : Finishes t s₂ 1 0 := .stay (goto_self ..) hstep₂ h₃ rfl rfl
    have h₁ : Finishes t s₁ 1 0 := .stay (goto_self ..) hstep₁ h₂ rfl rfl
    exact step_enqLoadTail hpc h₁

theorem finishes_enqFirstLoad {q : Addr} (hS : Sound s) (hpc : s.pc t = .enqFirstLoad q) :
    Finishes t s 2 0 := by
  have hstep : s.threadStep t = some (s.goto t (.enqLoadTail q), .load) := by
    rw [State.threadStep, hpc]
  exact .stay hpc hstep (finishes_enqLoadTail (hS.thread hstep) (goto_self ..)) rfl rfl

theorem finishes_enqCasTail {q : Addr} {p n : Ptr} (hS : Sound s) (hpc : s.pc t = .enqCasTail q p n) :
    Finishes t s 2 0 := by
  have hstep : ∃ s' a, s.threadStep t = some (s', a) ∧ s'.pc t = .enqLoadTail q := by
    rw [State.threadStep, hpc]
    by_cases htail : s.tail = p
    · exact ⟨_, _, if_pos htail, goto_self ..⟩
    · exact ⟨_, _, if_neg htail, goto_self ..⟩
  obtain ⟨s', a, hstep, hhead⟩ := hstep
  exact .stay hpc hstep (finishes_enqLoadTail (hS.thread hstep) hhead) rfl rfl

theorem finishes_enqLoadNext {q : Addr} {p : Ptr} (hS : Sound s) (hpc : s.pc t = .enqLoadNext q p) :
    Finishes t s 2 0 := by
  have hstep : ∃ n, s.threadStep t = some (s.goto t (.enqCasTail q p n), .load) := by
    obtain ⟨a, node, hderef⟩ := hS.deref (t := t) (by rw [hpc, Pc.pointer])
    refine ⟨node.next, ?_⟩
    rw [State.threadStep, hpc]
    simp only [hderef]
  obtain ⟨n, hstep⟩ := hstep
  exact .stay hpc hstep (finishes_enqCasTail (hS.thread hstep) (goto_self ..)) rfl rfl

theorem finishes_enqCasNext {q : Addr} {p : Ptr} (hS : Sound s) (hpc : s.pc t = .enqCasNext q p) :
    Finishes t s 2 0 := by
  obtain ⟨a, node, hderef⟩ := hS.deref (t := t) (by rw [hpc, Pc.pointer])
  by_cases hnull : node.next = none
  · exact (finishes_enqCasNext_last hpc ⟨a, node, hderef, hnull⟩).mono (by decide) (Nat.le_refl 0)
  · have hstep : s.threadStep t = some (s.goto t (.enqLoadNext q p), .casNext false) := by
      rw [State.threadStep, hpc]
      simp only [hderef, if_neg hnull]
    exact .stay hpc hstep (finishes_enqLoadNext (hS.thread hstep) (goto_self ..)) rfl rfl

/-! #### `dequeue` -/

theorem finishes_deqDrop {p : Ptr} {res : Option V} (hS : Sound s) (hpc : s.pc t = .deqDrop p res) :
    Finishes t s 0 0 := by
  have hstep : ∃ a, s.threadStep t = some (s.goto t (.ret (.value res)), a) := by
    obtain ⟨a, node, hderef⟩ := hS.deref (t := t) (by rw [hpc, Pc.pointer])
    refine ⟨.dropInPlace a node.value, ?_⟩
    rw [State.threadStep, hpc]
    simp only [hderef]
  obtain ⟨a, hstep⟩ := hstep
  exact .stay hpc hstep (finishes_ret (goto_self ..)) rfl rfl

theorem finishes_deqTake {p n : Ptr} (hS : Sound s) (hpc : s.pc t = .deqTake p n) :
    Finishes t s 0 0 := by
  have hstep : ∃ s' a res, s.threadStep t = some (s', a) ∧ s'.pc t = .deqDrop p res := by
    obtain ⟨o, l, h, k, H⟩ := hS
    obtain ⟨a, node, hderef, -, -⟩ := H.take hpc
    refine ⟨(s.store a { node with value := none }).goto t (.deqDrop p node.value),
      .take a node.value, node.value, ?_, goto_self ..⟩
    rw [State.threadStep, hpc]
    simp only [hderef]
  obtain ⟨s', a, res, hstep, hdrop⟩ := hstep
  exact .stay hpc hstep (finishes_deqDrop (hS.thread hstep) hdrop) rfl rfl

theorem finishes_deqLoadTaken {p : Ptr} (hS : Sound s) (hpc : s.pc t = .deqLoadTaken p) :
    Finishes t s 0 0 := by
  have hstep : ∃ n, s.threadStep t = some (s.goto t (.deqTake p n), .load) := by
    obtain ⟨a, node, hderef⟩ := hS.deref (t := t) (by rw [hpc, Pc.pointer])
    refine ⟨node.next, ?_⟩
    rw [State.threadStep, hpc]
    simp only [hderef]
  obtain ⟨n, hstep⟩ := hstep
  exact .stay hpc hstep (finishes_deqTake (hS.thread hstep) (goto_self ..)) rfl rfl

/-- The exchange of `head` succeeds if no other thread has moved it. -/
theorem finishes_deqCasHead_same {p n : Ptr} (hS : Sound s) (hpc : s.pc t = .deqCasHead p n)
    (hhead : s.head = p) : Finishes t s 0 0 := by
  have hstep : s.threadStep t =
      some (({ s with head := n } : State ι V).goto t (.deqLoadTaken p), .casHead true) := by
    rw [State.threadStep, hpc]
    exact if_pos hhead
  exact .stay hpc hstep (finishes_deqLoadTaken (hS.thread hstep) (goto_self ..)) rfl rfl

theorem deqLoadNext_step {p : Ptr} (hS : Sound s) (hpc : s.pc t = .deqLoadNext p) :
    ∃ n, s.threadStep t = some (s.goto t (.deqCasHead p n), .load) := by
  obtain ⟨a, node, hderef⟩ := hS.deref (t := t) (by rw [hpc, Pc.pointer])
  refine ⟨node.next, ?_⟩
  rw [State.threadStep, hpc]
  simp only [hderef]

theorem deqCheck_step {p : Ptr} (hS : Sound s) (hpc : s.pc t = .deqCheck p) :
    s.threadStep t = some (s.goto t (.ret (.value none)), .checkNull true) ∨
      s.threadStep t = some (s.goto t (.deqLoadNext p), .checkNull false) := by
  obtain ⟨a, node, hderef⟩ := hS.deref (t := t) (by rw [hpc, Pc.pointer])
  rw [State.threadStep, hpc]
  simp only [hderef]
  by_cases hnull : node.next = none
  · exact .inl (if_pos hnull)
  · exact .inr (if_neg hnull)

theorem finishes_deqCheck_same {p : Ptr} (hS : Sound s) (hpc : s.pc t = .deqCheck p)
    (hhead : s.head = p) : Finishes t s 0 0 := by
  rcases deqCheck_step hS hpc with hstep | hstep
  · exact .stay hpc hstep (finishes_ret (goto_self ..)) rfl rfl
  · have hS' := hS.thread hstep
    obtain ⟨n, hstep'⟩ := deqLoadNext_step hS' (goto_self ..)
    have hcas : Finishes t _ 0 0 := finishes_deqCasHead_same (hS'.thread hstep') (goto_self ..) hhead
    exact .stay hpc hstep (.stay (goto_self ..) hstep' hcas rfl rfl) rfl rfl

theorem finishes_deqLoadHead (hS : Sound s) (hpc : s.pc t = .deqLoadHead) : Finishes t s 0 1 := by
  have hstep : s.threadStep t = some (s.goto t (.deqCheck s.head), .load) := by
    rw [State.threadStep, hpc]
  have hout : (Pc.deqLoadHead : Pc V).enqueueLoop.isHead = false := rfl
  have hnext : Finishes t (s.goto t (.deqCheck s.head)) 0 0 :=
    finishes_deqCheck_same (hS.thread hstep) (goto_self ..) rfl
  refine hnext.step hstep (i := 0) (j := 1) ?_ (Bool.toNat_le _)
  rw [enqueueLoop, hpc, LoopPos.starts_eq_false hout]
  rfl

theorem finishes_deqFirstLoad (hS : Sound s) (hpc : s.pc t = .deqFirstLoad) : Finishes t s 0 1 := by
  have hstep : s.threadStep t = some (s.goto t .deqLoadHead, .load) := by rw [State.threadStep, hpc]
  exact .stay hpc hstep (finishes_deqLoadHead (hS.thread hstep) (goto_self ..)) rfl rfl

theorem finishes_deqCasHead {p n : Ptr} (hS : Sound s) (hpc : s.pc t = .deqCasHead p n) :
    Finishes t s 0 1 := by
  by_cases hhead : s.head = p
  · exact (finishes_deqCasHead_same hS hpc hhead).mono (Nat.le_refl 0) (by decide)
  · have hstep : s.threadStep t = some (s.goto t .deqLoadHead, .casHead false) := by
      rw [State.threadStep, hpc]
      exact if_neg hhead
    exact .stay hpc hstep (finishes_deqLoadHead (hS.thread hstep) (goto_self ..)) rfl rfl

theorem finishes_deqLoadNext {p : Ptr} (hS : Sound s) (hpc : s.pc t = .deqLoadNext p) :
    Finishes t s 0 1 := by
  obtain ⟨n, hstep⟩ := deqLoadNext_step hS hpc
  exact .stay hpc hstep (finishes_deqCasHead (hS.thread hstep) (goto_self ..)) rfl rfl

theorem finishes_deqCheck {p : Ptr} (hS : Sound s) (hpc : s.pc t = .deqCheck p) :
    Finishes t s 0 1 := by
  rcases deqCheck_step hS hpc with hstep | hstep
  · exact .stay hpc hstep ((finishes_ret (goto_self ..)).mono (Nat.le_refl 0) (by decide)) rfl rfl
  · exact .stay hpc hstep (finishes_deqLoadNext (hS.thread hstep) (goto_self ..)) rfl rfl

/-- **A thread that runs alone returns**, within three iterations of `enqueue` or two of `dequeue`, the
one it is in the middle of included. -/
theorem finishes (hS : Sound s) (hbusy : s.pc t ≠ .idle) :
    ∃ m n, Finishes t s m n ∧ current (enqueueLoop t s) + m ≤ 3 ∧ current (dequeueLoop t s) + n ≤ 2 := by
  unfold enqueueLoop dequeueLoop
  cases hpc : s.pc t with
  | idle => exact absurd hpc hbusy
  | enqFirstLoad => exact ⟨2, 0, finishes_enqFirstLoad hS hpc, by simp, by simp⟩
  | enqLoadTail => exact ⟨2, 0, finishes_enqLoadTail hS hpc, by simp, by simp⟩
  | enqCasNext => exact ⟨2, 0, finishes_enqCasNext hS hpc, by simp, by simp⟩
  | enqLoadNext => exact ⟨2, 0, finishes_enqLoadNext hS hpc, by simp, by simp⟩
  | enqCasTail => exact ⟨2, 0, finishes_enqCasTail hS hpc, by simp, by simp⟩
  | enqSwing => exact ⟨0, 0, finishes_enqSwing hpc, by simp, by simp⟩
  | deqFirstLoad => exact ⟨0, 1, finishes_deqFirstLoad hS hpc, by simp, by simp⟩
  | deqLoadHead => exact ⟨0, 1, finishes_deqLoadHead hS hpc, by simp, by simp⟩
  | deqCheck => exact ⟨0, 1, finishes_deqCheck hS hpc, by simp, by simp⟩
  | deqLoadNext => exact ⟨0, 1, finishes_deqLoadNext hS hpc, by simp, by simp⟩
  | deqCasHead => exact ⟨0, 1, finishes_deqCasHead hS hpc, by simp, by simp⟩
  | deqLoadTaken => exact ⟨0, 0, finishes_deqLoadTaken hS hpc, by simp, by simp⟩
  | deqTake => exact ⟨0, 0, finishes_deqTake hS hpc, by simp, by simp⟩
  | deqDrop => exact ⟨0, 0, finishes_deqDrop hS hpc, by simp, by simp⟩
  | ret => exact ⟨0, 0, finishes_ret hpc, by simp, by simp⟩
  | fault =>
      obtain ⟨o, l, h, k, H⟩ := hS
      have hok := H.pcOk t
      rw [hpc] at hok
      exact hok.elim

end Alone

/-! ### Calls -/

/-- A step of a thread inside a call starts no call, and only a return ends one. -/
theorem threadStep_busy {s s' : State ι V} {t : ι} {a : Act V} (h : s.threadStep t = some (s', a)) :
    (s'.pc t = .idle → ∃ res, a = .ret res) ∧ (s'.pc t).enqueueLoop ≠ .before ∧
      (s'.pc t).dequeueLoop ≠ .before := by
  unfold State.threadStep at h
  split at h <;> (repeat' split at h) <;> cases h <;>
    simp [Function.update_self, Pc.enqueueLoop, Pc.dequeueLoop]

theorem threadStep_fails {s s' : State ι V} {t : ι} {a : Act V} (h : s.threadStep t = some (s', a))
    (hfails : (dequeueLoop t s).fails (dequeueLoop t s') = true) : s'.head = s.head := by
  unfold dequeueLoop at hfails
  rw [State.threadStep] at h
  cases hpc : s.pc t <;> rw [hpc] at h hfails <;> dsimp only at h
  case deqCasHead =>
      split at h <;> cases h
      · rw [goto_pc, Function.update_self] at hfails
        cases hfails
      · rfl
  all_goals (repeat' split at h) <;> cases h <;> rfl

theorem Step.pc_eq {s s' : State ι V} {e : Event ι V} {t : ι} (h : Step s e s')
    (hother : ∀ a, e ≠ .act t a) : s'.pc t = s.pc t := by
  have hne : ∀ t' a, e = .act t' a → t ≠ t' := by
    rintro t' a rfl rfl
    exact hother a rfl
  cases h with
  | enqueue t' | dequeue t' => exact Function.update_of_ne (hne _ _ rfl) ..
  | thread _ t' a hstep =>
      obtain ⟨x, hpc⟩ := threadStep_pc hstep
      rw [hpc, Function.update_of_ne (hne _ _ rfl)]
  | dropStart | dropNode | dropEnd => rfl

theorem Step.busy {s s' : State ι V} {e : Event ι V} {t : ι} (h : Step s e s')
    (hbusy : s.pc t ≠ .idle ∨ ∃ a, e = .act t a) (hret : ∀ res, e ≠ .act t (.ret res)) :
    s'.pc t ≠ .idle := by
  by_cases hother : ∀ a, e ≠ .act t a
  · rw [h.pc_eq hother]
    exact hbusy.resolve_right fun ⟨a, ha⟩ => hother a ha
  · obtain ⟨a, ha⟩ := not_forall.mp hother
    obtain rfl := not_not.mp ha
    cases h with
    | enqueue =>
        rw [State.callEnqueue, goto_self]
        rintro ⟨⟩
    | dequeue =>
        rw [State.callDequeue, goto_self]
        rintro ⟨⟩
    | thread _ _ _ hstep =>
        intro hidle
        obtain ⟨res, rfl⟩ := (threadStep_busy hstep).1 hidle
        exact hret res rfl

theorem Step.not_calls {s s' : State ι V} {e : Event ι V} {t : ι} (h : Step s e s')
    (hbusy : s.pc t ≠ .idle) :
    (enqueueLoop t s).calls (enqueueLoop t s') = false ∧
      (dequeueLoop t s).calls (dequeueLoop t s') = false := by
  unfold enqueueLoop dequeueLoop
  by_cases hother : ∀ a, e ≠ .act t a
  · rw [h.pc_eq hother]
    exact ⟨LoopPos.calls_self _, LoopPos.calls_self _⟩
  · obtain ⟨a, ha⟩ := not_forall.mp hother
    obtain rfl := not_not.mp ha
    cases h with
    | enqueue _ _ _ _ hidle | dequeue _ _ hidle => exact absurd hidle hbusy
    | thread _ _ _ hstep =>
        obtain ⟨-, he, hd⟩ := threadStep_busy hstep
        exact ⟨LoopPos.calls_eq_false _ he, LoopPos.calls_eq_false _ hd⟩

/-- An iteration of `dequeue` that fails leaves `head` alone. -/
theorem Step.head_of_fails {s s' : State ι V} {e : Event ι V} {t : ι} (h : Step s e s')
    (hfails : (dequeueLoop t s).fails (dequeueLoop t s') = true) : s'.head = s.head := by
  by_cases hother : ∀ a, e ≠ .act t a
  · rw [dequeueLoop, dequeueLoop, h.pc_eq hother, LoopPos.fails_self] at hfails
    cases hfails
  · obtain ⟨a, ha⟩ := not_forall.mp hother
    obtain rfl := not_not.mp ha
    cases h with
    | enqueue | dequeue => rfl
    | thread _ _ _ hstep => exact threadStep_fails hstep hfails

/-- During a call its thread is busy in every state, and no other call of it starts. -/
theorem busy_of_not_ret {u v : State ι V} {mid : List (Stage (State ι V) (Event ι V))} {t : ι}
    (hrun : Run (Recorded Step) u mid v) (hbusy : u.pc t ≠ .idle)
    (hret : ∀ z ∈ mid, ∀ res, z.event ≠ .act t (.ret res)) :
    v.pc t ≠ .idle ∧ ∀ z ∈ mid, z.calls (enqueueLoop t) = false ∧ z.calls (dequeueLoop t) = false := by
  induction hrun with
  | nil => exact ⟨hbusy, List.forall_mem_nil _⟩
  | @snoc mid x w v _ hlast ih =>
      obtain ⟨hw, hall⟩ := ih fun z hz => hret z (List.mem_append_left _ hz)
      have hx := hret x (List.mem_append_right _ (List.mem_singleton.mpr rfl))
      refine ⟨hlast.step.busy (.inl hw) hx, fun z hz => ?_⟩
      rcases List.mem_append.mp hz with hz | hz
      · exact hall z hz
      · rw [List.mem_singleton.mp hz, Stage.calls, Stage.calls, hlast.before, hlast.after]
        exact hlast.step.not_calls hw

/-- The steps after a call, up to its return, start no other call of the thread. -/
theorem not_calls_in_call {u v : State ι V} {tr₀ mid rest : List (Stage (State ι V) (Event ι V))}
    {x : Stage (State ι V) (Event ι V)} {t : ι}
    (hrun : Run (Recorded Step) u (tr₀ ++ x :: (mid ++ rest)) v)
    (hcall : x.event = .act t .callDequeue ∨ ∃ value q, x.event = .act t (.callEnqueue value q))
    (hret : ∀ z ∈ mid, ∀ res, z.event ≠ .act t (.ret res)) :
    (∃ w w', Run (Recorded Step) w mid w') ∧
      ∀ z ∈ mid, z.calls (enqueueLoop t) = false ∧ z.calls (dequeueLoop t) = false := by
  have hsplit : tr₀ ++ x :: (mid ++ rest) = tr₀ ++ (x :: mid ++ rest) := by simp
  rw [hsplit] at hrun
  obtain ⟨u', w', hwindow⟩ := hrun.window
  obtain ⟨w, hfirst, hwindow⟩ := hwindow.cons_inv
  have hact : ∃ a, x.event = .act t a := by
    rcases hcall with he | ⟨value, q, he⟩
    · exact ⟨_, he⟩
    · exact ⟨_, he⟩
  have hnotret : ∀ res, x.event ≠ .act t (.ret res) := by
    intro res he
    rcases hcall with he' | ⟨value, q, he'⟩
    · cases he'.symm.trans he
    · cases he'.symm.trans he
  exact ⟨⟨w, w', hwindow⟩, (busy_of_not_ret hwindow (hfirst.step.busy (.inr hact) hnotret) hret).2⟩

/-! ### Progress -/

/-- What a run shows of the progress of a thread: `tail` and `head` only move to the next node; an
iteration fails only if the pointer moves during it; a call makes at most one iteration more than the
pointer moves; and from the end of the run the thread returns on its own. -/
structure Progress (tr : List (Stage (State ι V) (Event ι V))) (s : State ι V) (t : ι) : Prop where
  tail_moves : ∀ x ∈ tr, x.after.tail = x.before.tail ∨ Follows x.before x.before.tail x.after.tail
  head_moves : ∀ x ∈ tr, x.after.head = x.before.head ∨ Follows x.before x.before.head x.after.head
  enqueue_fails : ∀ tr₀ x mid y rest, tr = tr₀ ++ x :: (mid ++ y :: rest) →
    x.starts (enqueueLoop t) = true → (∀ z ∈ mid, z.starts (enqueueLoop t) = false) →
    y.fails (enqueueLoop t) = true → ∃ z ∈ mid ++ [y], z.moves State.tail = true
  dequeue_fails : ∀ tr₀ x mid y rest, tr = tr₀ ++ x :: (mid ++ y :: rest) →
    x.starts (dequeueLoop t) = true → (∀ z ∈ mid, z.starts (dequeueLoop t) = false) →
    y.fails (dequeueLoop t) = true →
      ∃ z ∈ mid, z.moves State.head = true ∧ ∃ t' a, z.event = .act t' a ∧ t' ≠ t
  iterations : ∀ tr₀ x mid rest, tr = tr₀ ++ x :: (mid ++ rest) →
    (x.event = .act t .callDequeue ∨ ∃ value q, x.event = .act t (.callEnqueue value q)) →
    (∀ z ∈ mid, ∀ res, z.event ≠ .act t (.ret res)) →
      mid.countP (Stage.starts (enqueueLoop t)) ≤ mid.countP (Stage.moves State.tail) + 1 ∧
      mid.countP (Stage.starts (dequeueLoop t)) ≤ mid.countP (Stage.moves State.head) + 1
  alone : s.pc t ≠ .idle → ∃ m n, Finishes t s m n ∧
    current (enqueueLoop t s) + m ≤ 3 ∧ current (dequeueLoop t s) + n ≤ 2

omit [DecidableEq ι] in
theorem Sound.new (p : Addr) : Sound (State.new p : State ι V) :=
  ⟨Object.new [], [p], 0, 0, Coupled.init p⟩

/-- **`LockFreeQueue` is lock-free.** -/
theorem lockFreeQueue_progress (p : Addr) {tr : List (Stage (State ι V) (Event ι V))} {s : State ι V}
    (hrun : Run (Recorded Step) (State.new p) tr s) (t : ι) : Progress tr s t := by
  obtain ⟨hS, hstage⟩ := hrun.forall_stage Sound (Sound.new p) fun _ _ _ hS hstep => hS.next hstep
  have hloopE : Looping (enqueueLoop t) State.tail tr := fun x hx =>
    ((hstage x hx).1.tail_loop (hstage x hx).2 t).1
  have hloopD : Looping (dequeueLoop t) State.head tr := fun x hx =>
    ((hstage x hx).1.head_loop (hstage x hx).2 t).1
  constructor
  case tail_moves =>
      intro x hx
      exact ((hstage x hx).1.tail_loop (hstage x hx).2 t).2
  case head_moves =>
      intro x hx
      exact ((hstage x hx).1.head_loop (hstage x hx).2 t).2.imp_right And.left
  case enqueue_fails =>
      intro tr₀ x mid y rest htr hx hmid hy
      rcases hloopE.moves_in_iteration hrun htr hx hmid hy with ⟨z, hz, hmoves, -⟩ | hmoves
      · exact ⟨z, List.mem_append_left _ hz, hmoves⟩
      · exact ⟨y, List.mem_append_right _ (List.mem_singleton.mpr rfl), hmoves⟩
  case dequeue_fails =>
      intro tr₀ x mid y rest htr hx hmid hy
      rcases hloopD.moves_in_iteration hrun htr hx hmid hy with ⟨z, hz, hmoves, p, hinside⟩ | hmoves
      · obtain ⟨hz', hstep⟩ := hstage z (by simp [htr, hz])
        have hne : z.after.head ≠ z.before.head := by simpa [Stage.moves] using hmoves
        obtain ⟨-, t', a, he, houtside⟩ := (hz'.head_loop hstep t).2.resolve_left hne
        refine ⟨z, hz, hmoves, t', a, he, ?_⟩
        rintro rfl
        rw [hinside] at houtside
        cases houtside
      · obtain ⟨-, hstep⟩ := hstage y (by simp [htr])
        rw [moves_eq_false.mpr (hstep.head_of_fails hy)] at hmoves
        cases hmoves
  case iterations =>
      intro tr₀ x mid rest htr hcall hret
      subst htr
      obtain ⟨⟨w, w', hwindow⟩, hcalls⟩ := not_calls_in_call hrun hcall hret
      constructor
      · exact (hloopE.mono fun z hz => by simp [hz]).starts_le_moves hwindow fun z hz => (hcalls z hz).1
      · exact (hloopD.mono fun z hz => by simp [hz]).starts_le_moves hwindow fun z hz => (hcalls z hz).2
  case alone => exact finishes hS

/-- One thread has linked its node and stopped before it moves `tail`; another one has loaded `tail`. -/
def lagging : List (Bool × Move Nat) :=
  [(true, .enqueue 10 1), (true, .step), (true, .step), (true, .step),
    (false, .enqueue 20 2), (false, .step), (false, .step)]

theorem lockFreeQueue_progress_lagging :
    ∃ (tr : List (Stage (State Bool Nat) (Event Bool Nat))) (s : State Bool Nat),
      tr.map Stage.event = [.act true (.callEnqueue 10 1), .act true .load, .act true .load,
        .act true (.casNext true), .act false (.callEnqueue 20 2), .act false .load, .act false .load] ∧
      Run (Recorded Step) (State.new 0) tr s ∧ Progress tr s false := by
  have hreplay : (replay State.move (State.new 0) lagging).map Prod.snd =
      some [.act true (.callEnqueue 10 1), .act true .load, .act true .load, .act true (.casNext true),
        .act false (.callEnqueue 20 2), .act false .load, .act false .load] := by decide +kernel
  obtain ⟨⟨s, events⟩, hrun, rfl⟩ := Option.map_eq_some_iff.mp hreplay
  obtain ⟨tr, hevents, hrun⟩ := (Run.of_replay (fun _ _ _ _ => step_of_move) hrun).record
  exact ⟨tr, s, hevents, hrun, lockFreeQueue_progress 0 hrun false⟩

end SmallTrial.Queue

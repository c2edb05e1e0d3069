import Mathlib.Data.List.Nodup
import SmallTrial.QueueModel
import SmallTrial.TransitionFamily

/-! The invariant of `LockFreeQueue` under any interleaving, coupled with the atomic FIFO object. All
linked nodes form a chain `l`; `head` points to its node `h` and `tail` to its node `k`, the last or
the second-last one. The values of the abstract queue are those of the nodes after `head`; a node at
or before `head` holds a value only while the dequeue that moved `head` to it has still to take it. -/

namespace SmallTrial.Queue

open Transition

variable {ι V : Type*}

abbrev Heap (V : Type*) := Addr → Option (Node V)

/-- The value the node at `a` holds, if any. -/
def valueAt (heap : Heap V) (a : Addr) : Option V := (heap a).bind Node.value

/-- The node an `enqueue` has allocated and not linked yet. -/
def Pc.newNode : Pc V → Option Addr
  | .enqFirstLoad q | .enqLoadTail q | .enqCasNext q _ | .enqLoadNext q _ | .enqCasTail q _ _ => some q
  | _ => none

/-- The pointer `p` of a `dequeue` that has moved `head` from `p` and not taken the value yet. -/
def Pc.wonHead : Pc V → Option Ptr
  | .deqLoadTaken p | .deqTake p _ => some p
  | _ => none

/-- `l` is the chain of linked nodes, with `head` at index `h` and `tail` at index `k`. -/
structure Shape (s : State ι V) (l : List Addr) (h k : Nat) : Prop where
  nodup : l.Nodup
  node_eq : ∀ i a, l[i]? = some a → ∃ value, s.heap a = some ⟨value, l[i + 1]?⟩
  head_eq : s.head = l[h]?
  tail_eq : s.tail = l[k]?
  head_lt : h < l.length
  tail_lt : k < l.length
  tail_lag : l.length ≤ k + 2

/-- `q` is an unlinked node that holds the argument of the pending `enqueue`. -/
def Fresh (heap : Heap V) (l : List Addr) (q : Addr) (call : Call (Op V) (Res V)) : Prop :=
  ∃ value, call = .pending (.enqueue value) ∧ heap q = some (.new value) ∧ q ∉ l

/-- What holds of the local variables of a thread, and where its call on the FIFO object stands. -/
def PcOk (heap : Heap V) (l : List Addr) (h k : Nat) : Pc V → Call (Op V) (Res V) → Prop
  | .idle, call => call = .idle
  | .enqFirstLoad q, call | .enqLoadTail q, call => Fresh heap l q call
  | .enqCasNext q p, call => Fresh heap l q call ∧ ∃ i ≤ k, p = l[i]?
  | .enqLoadNext q p, call => Fresh heap l q call ∧ ∃ i ≤ k, i + 1 < l.length ∧ p = l[i]?
  | .enqCasTail q p n, call =>
      Fresh heap l q call ∧ ∃ i ≤ k, i + 1 < l.length ∧ p = l[i]? ∧ n = l[i + 1]?
  | .enqSwing q p, call =>
      call = .done .unit ∧ ∃ i ≤ k, i + 1 < l.length ∧ p = l[i]? ∧ some q = l[i + 1]?
  | .deqFirstLoad, call | .deqLoadHead, call => call = .pending .dequeue
  | .deqCheck p, call => call = .pending .dequeue ∧ ∃ i ≤ h, p = l[i]?
  | .deqLoadNext p, call =>
      call = .pending .dequeue ∧ ∃ i ≤ h, i + 1 < l.length ∧ p = l[i]?
  | .deqCasHead p n, call =>
      call = .pending .dequeue ∧ ∃ i ≤ h, i + 1 < l.length ∧ p = l[i]? ∧ n = l[i + 1]?
  | .deqLoadTaken p, call =>
      ∃ i a value, i < h ∧ p = l[i]? ∧ l[i + 1]? = some a ∧ valueAt heap a = some value ∧
        call = .done (.value (some value))
  | .deqTake p n, call =>
      ∃ i a value, i < h ∧ p = l[i]? ∧ l[i + 1]? = some a ∧ valueAt heap a = some value ∧
        call = .done (.value (some value)) ∧ n = some a
  | .deqDrop p res, call => call = .done (.value res) ∧ ∃ i < h, p = l[i]?
  | .ret res, call => call = .done res
  | .fault, _ => False

/-- The invariant: the queue in state `s` with chain `l` stands for the FIFO object `o`. -/
structure Coupled (s : State ι V) (o : Object ι (Op V) (Res V) (List V)) (l : List Addr)
    (h k : Nat) : Prop extends Shape s l h k where
  value_eq : (l.drop (h + 1)).map (valueAt s.heap) = o.value.map some
  pcOk : ∀ t, PcOk s.heap l h k (s.pc t) (o.call t)
  newNode_inj : ∀ t t' q, (s.pc t).newNode = some q → (s.pc t').newNode = some q → t = t'
  newNode_mem : ∀ a, s.heap a ≠ none → a ∈ l ∨ ∃ t, (s.pc t).newNode = some a
  wonHead_inj : ∀ t t' p, (s.pc t).wonHead = some p → (s.pc t').wonHead = some p → t = t'
  front_value : ∀ a, l[0]? = some a → valueAt s.heap a = none
  spent_value : ∀ i a, i < h → l[i + 1]? = some a → valueAt s.heap a ≠ none →
    ∃ t, (s.pc t).wonHead = some l[i]?

/-! ### The heap -/

theorem valueAt_update (heap : Heap V) (a b : Addr) (node : Node V) :
    valueAt (Function.update heap a (some node)) b = if b = a then node.value else valueAt heap b := by
  unfold valueAt
  by_cases hb : b = a
  · rw [hb, Function.update_self, if_pos rfl, Option.bind_some]
  · rw [Function.update_of_ne hb, if_neg hb]

@[simp] theorem store_heap (s : State ι V) (a : Addr) (node : Node V) :
    (s.store a node).heap = Function.update s.heap a (some node) := rfl

@[simp] theorem store_pc (s : State ι V) (a : Addr) (node : Node V) : (s.store a node).pc = s.pc := rfl

theorem new_heap (p : Addr) : (State.new p : State ι V).heap p = some .dummy := by
  simp only [State.new, Function.update_self]

theorem deref_some {s : State ι V} {a : Addr} {node : Node V} (h : s.heap a = some node) :
    s.deref (some a) = some (a, node) := by
  rw [State.deref, Option.bind_some, h, Option.map_some]

section Goto

variable [DecidableEq ι] (s : State ι V) (t : ι) (x : Pc V)

@[simp] theorem goto_heap : (s.goto t x).heap = s.heap := rfl
@[simp] theorem goto_head : (s.goto t x).head = s.head := rfl
@[simp] theorem goto_tail : (s.goto t x).tail = s.tail := rfl
@[simp] theorem goto_life : (s.goto t x).life = s.life := rfl
@[simp] theorem goto_pc : (s.goto t x).pc = Function.update s.pc t x := rfl

/-- A thread between calls has no step of its own. -/
theorem threadStep_idle {s : State ι V} {t : ι} (hidle : s.pc t = .idle) : s.threadStep t = none := by
  rw [State.threadStep, hidle]

/-- A step of a thread moves no other thread. -/
theorem threadStep_pc {s s' : State ι V} {t : ι} {a : Act V} (h : s.threadStep t = some (s', a)) :
    ∃ x, s'.pc = Function.update s.pc t x := by
  unfold State.threadStep at h
  split at h <;> (repeat' split at h) <;> cases h <;> exact ⟨_, rfl⟩

end Goto

namespace Shape

variable {s : State ι V} {l : List Addr} {h k : Nat}

/-- A pointer into the chain can be dereferenced, and its `next` is the following entry. -/
theorem deref_eq (H : Shape s l h k) {i : Nat} (hi : i < l.length) :
    ∃ a value, l[i]? = some a ∧ s.heap a = some ⟨value, l[i + 1]?⟩ ∧
      s.deref l[i]? = some (a, ⟨value, l[i + 1]?⟩) := by
  obtain ⟨a, ha⟩ : ∃ a, l[i]? = some a := ⟨_, List.getElem?_eq_getElem hi⟩
  obtain ⟨value, hnode⟩ := H.node_eq i a ha
  refine ⟨a, value, ha, hnode, ?_⟩
  rw [ha]
  exact deref_some hnode

theorem mem_ne_none (H : Shape s l h k) {a : Addr} (ha : a ∈ l) : s.heap a ≠ none := by
  obtain ⟨i, hi⟩ := List.mem_iff_getElem?.mp ha
  obtain ⟨value, hnode⟩ := H.node_eq i a hi
  rw [hnode]
  exact Option.some_ne_none _

end Shape

/-- A thread's local facts survive a change of the shared state that extends the chain, moves the
pointers forward, and keeps the thread's own new node and the value it has still to take. -/
theorem PcOk.mono {heap heap' : Heap V} {l l' : List Addr} {h h' k k' : Nat} {x : Pc V}
    {call : Call (Op V) (Res V)} (hlen : l.length ≤ l'.length)
    (hc : ∀ i < l.length, l'[i]? = l[i]?) (hk : k < l.length) (hh : h < l.length) (hkk : k ≤ k')
    (hhh : h ≤ h')
    (hnew : ∀ q, x.newNode = some q → ∀ value, heap q = some (.new value) → q ∉ l →
      heap' q = some (.new value) ∧ q ∉ l')
    (hval : ∀ i a, i < h → x.wonHead = some l[i]? → l[i + 1]? = some a →
      valueAt heap' a = valueAt heap a) (H : PcOk heap l h k x call) : PcOk heap' l' h' k' x call := by
  have hfresh : ∀ q, x.newNode = some q → Fresh heap l q call → Fresh heap' l' q call := by
    rintro q hq ⟨value, hcall, hnode, hmem⟩
    exact ⟨value, hcall, hnew q hq value hnode hmem⟩
  cases x with
  | idle | deqFirstLoad | deqLoadHead | ret | fault => exact H
  | enqFirstLoad q | enqLoadTail q => exact hfresh q rfl H
  | enqCasNext q p =>
      obtain ⟨hf, i, hi, rfl⟩ := H
      exact ⟨hfresh q rfl hf, i, by omega, (hc i (by omega)).symm⟩
  | enqLoadNext q p =>
      obtain ⟨hf, i, hi, hlt, rfl⟩ := H
      exact ⟨hfresh q rfl hf, i, by omega, by omega, (hc i (by omega)).symm⟩
  | enqCasTail q p n =>
      obtain ⟨hf, i, hi, hlt, rfl, rfl⟩ := H
      exact ⟨hfresh q rfl hf, i, by omega, by omega, (hc i (by omega)).symm, (hc _ hlt).symm⟩
  | enqSwing q p =>
      obtain ⟨hcall, i, hi, hlt, rfl, hq⟩ := H
      exact ⟨hcall, i, by omega, by omega, (hc i (by omega)).symm, hq.trans (hc _ hlt).symm⟩
  | deqCheck p =>
      obtain ⟨hcall, i, hi, rfl⟩ := H
      exact ⟨hcall, i, by omega, (hc i (by omega)).symm⟩
  | deqLoadNext p =>
      obtain ⟨hcall, i, hi, hlt, rfl⟩ := H
      exact ⟨hcall, i, by omega, by omega, (hc i (by omega)).symm⟩
  | deqCasHead p n =>
      obtain ⟨hcall, i, hi, hlt, rfl, rfl⟩ := H
      exact ⟨hcall, i, by omega, by omega, (hc i (by omega)).symm, (hc _ hlt).symm⟩
  | deqLoadTaken p =>
      obtain ⟨i, a, value, hi, rfl, ha, hv, hcall⟩ := H
      refine ⟨i, a, value, by omega, (hc i (by omega)).symm, ?_, ?_, hcall⟩
      · rw [hc (i + 1) (by omega), ha]
      · rw [hval i a hi rfl ha, hv]
  | deqTake p n =>
      obtain ⟨i, a, value, hi, rfl, ha, hv, hcall, hn⟩ := H
      refine ⟨i, a, value, by omega, (hc i (by omega)).symm, ?_, ?_, hcall, hn⟩
      · rw [hc (i + 1) (by omega), ha]
      · rw [hval i a hi rfl ha, hv]
  | deqDrop p res =>
      obtain ⟨hcall, i, hi, rfl⟩ := H
      exact ⟨hcall, i, by omega, (hc i (by omega)).symm⟩

/-- The effect of `PcOk.mono` on all threads but the one that moves. -/
theorem pcOk_update [DecidableEq ι] {heap : Heap V} {l : List Addr} {h k : Nat} {pc : ι → Pc V}
    {call : ι → Call (Op V) (Res V)} {t : ι} {x : Pc V} {y : Call (Op V) (Res V)}
    (hx : PcOk heap l h k x y) (hother : ∀ t' ≠ t, PcOk heap l h k (pc t') (call t')) (t' : ι) :
    PcOk heap l h k (Function.update pc t x t') (Function.update call t y t') := by
  by_cases ht : t' = t
  · rw [ht, Function.update_self, Function.update_self]
    exact hx
  · rw [Function.update_of_ne ht, Function.update_of_ne ht]
    exact hother t' ht

/-! ### What a step does to the invariant -/

/-- An `enqueue` that has not linked its node yet: the node holds the argument of the pending call. -/
theorem PcOk.fresh {heap : Heap V} {l : List Addr} {h k : Nat} {x : Pc V}
    {call : Call (Op V) (Res V)} {q : Addr} (H : PcOk heap l h k x call) (hq : x.newNode = some q) :
    Fresh heap l q call := by
  cases x <;> cases hq
  case enqFirstLoad | enqLoadTail => exact H
  case enqCasNext | enqLoadNext | enqCasTail => exact H.1

/-- A thread is between calls, in an `enqueue` before it takes effect, in a `dequeue` before it takes
effect, or in a call that has taken effect. -/
theorem PcOk.call_cases {heap : Heap V} {l : List Addr} {h k : Nat} {x : Pc V}
    {call : Call (Op V) (Res V)} (H : PcOk heap l h k x call) :
    x = .idle ∨ (∃ q, x.newNode = some q) ∨ call = .pending .dequeue ∨ ∃ res, call = .done res := by
  cases x with
  | idle => exact .inl rfl
  | enqFirstLoad q | enqLoadTail q | enqCasNext q | enqLoadNext q | enqCasTail q =>
      exact .inr (.inl ⟨q, rfl⟩)
  | deqFirstLoad | deqLoadHead => exact .inr (.inr (.inl H))
  | deqCheck | deqLoadNext | deqCasHead => exact .inr (.inr (.inl H.1))
  | enqSwing | deqDrop => exact .inr (.inr (.inr ⟨_, H.1⟩))
  | deqLoadTaken =>
      obtain ⟨_, _, _, _, _, _, _, hdone⟩ := H
      exact .inr (.inr (.inr ⟨_, hdone⟩))
  | deqTake =>
      obtain ⟨_, _, _, _, _, _, _, hdone, _⟩ := H
      exact .inr (.inr (.inr ⟨_, hdone⟩))
  | ret => exact .inr (.inr (.inr ⟨_, H⟩))
  | fault => exact H.elim

/-- A `dequeue` that has won `head` claims the value behind a node before the current head. -/
theorem PcOk.wonHead_lt {heap : Heap V} {l : List Addr} {h k : Nat} {x : Pc V}
    {call : Call (Op V) (Res V)} {p : Ptr} (H : PcOk heap l h k x call) (hp : x.wonHead = some p) :
    ∃ i < h, p = l[i]? := by
  cases x <;> cases hp
  case deqLoadTaken =>
      obtain ⟨i, _, _, hi, hp, _⟩ := H
      exact ⟨i, hi, hp⟩
  case deqTake =>
      obtain ⟨i, _, _, hi, hp, _⟩ := H
      exact ⟨i, hi, hp⟩

namespace Coupled

section Facts

variable {s : State ι V} {o : Object ι (Op V) (Res V) (List V)} {l : List Addr} {h k : Nat}

theorem call_idle (H : Coupled s o l h k) {t : ι} (hidle : s.pc t = .idle) : o.call t = .idle := by
  have hok := H.pcOk t
  rwa [hidle] at hok

theorem newNode_heap (H : Coupled s o l h k) {t : ι} {q : Addr} (hq : (s.pc t).newNode = some q) :
    s.heap q ≠ none := by
  obtain ⟨_, _, hnode, _⟩ := (H.pcOk t).fresh hq
  rw [hnode]
  exact Option.some_ne_none _

/-- The queue's values, read off the nodes after `head`. -/
theorem value_cons (H : Coupled s o l h k) {a : Addr} (ha : l[h + 1]? = some a) :
    ∃ value rest, o.value = value :: rest ∧ valueAt s.heap a = some value ∧
      (l.drop (h + 2)).map (valueAt s.heap) = rest.map some := by
  have hv := H.value_eq
  obtain ⟨hlt, rfl⟩ := List.getElem?_eq_some_iff.mp ha
  rw [List.drop_eq_getElem_cons hlt, List.map_cons] at hv
  cases ho : o.value with
  | nil =>
      rw [ho] at hv
      cases hv
  | cons value rest =>
      rw [ho, List.map_cons] at hv
      obtain ⟨hhead, htail⟩ := List.cons.inj hv
      exact ⟨value, rest, rfl, hhead, htail⟩

theorem value_nil (H : Coupled s o l h k) (hlast : l[h + 1]? = none) : o.value = [] := by
  have hv := H.value_eq
  rw [List.drop_eq_nil_of_le (List.getElem?_eq_none_iff.mp hlast), List.map_nil] at hv
  exact List.map_eq_nil_iff.mp hv.symm

/-- A successful exchange of `tail` moves it from node `k` to node `k + 1`. -/
theorem swing (H : Coupled s o l h k) (hnext : k + 1 < l.length) {p : Ptr} (hp : p = l[k + 1]?) :
    Coupled { s with tail := p } o l h (k + 1) where
  toShape := ⟨H.nodup, H.node_eq, H.head_eq, hp, H.head_lt, hnext, by have := H.tail_lag; omega⟩
  value_eq := H.value_eq
  pcOk := fun t => (H.pcOk t).mono (Nat.le_refl _) (fun _ _ => rfl) H.tail_lt H.head_lt
    (Nat.le_succ k) (Nat.le_refl _) (fun _ _ _ hq hc => ⟨hq, hc⟩) fun _ _ _ _ _ => rfl
  newNode_inj := H.newNode_inj
  newNode_mem := H.newNode_mem
  wonHead_inj := H.wonHead_inj
  front_value := H.front_value
  spent_value := H.spent_value

/-- The empty queue: the chain is the dummy node. -/
theorem init (p : Addr) : Coupled (State.new p : State ι V) (Object.new []) [p] 0 0 where
  nodup := List.nodup_singleton p
  node_eq := by
    intro i a ha
    obtain ⟨hi, rfl⟩ := List.getElem?_eq_some_iff.mp ha
    obtain rfl : i = 0 := by simpa using hi
    exact ⟨none, new_heap p⟩
  head_eq := rfl
  tail_eq := rfl
  head_lt := Nat.one_pos
  tail_lt := Nat.one_pos
  tail_lag := Nat.le_succ 1
  value_eq := rfl
  pcOk := fun _ => rfl
  newNode_inj := fun _ _ _ hq => nomatch hq
  newNode_mem := by
    intro a ha
    by_cases hp : a = p
    · exact .inl (List.mem_singleton.mpr hp)
    · simp [State.new, hp] at ha
  wonHead_inj := fun _ _ _ hp => nomatch hp
  front_value := by
    rintro a ha
    obtain rfl : p = a := by simpa using ha
    rw [valueAt, new_heap, Option.bind_some, Node.dummy]
  spent_value := fun i _ hi => absurd hi (Nat.not_lt_zero i)

/-- The walk of `Drop::drop` leaves the shared state as it is. -/
theorem setLife (H : Coupled s o l h k) (life : Life) : Coupled { s with life := life } o l h k where
  toShape := ⟨H.nodup, H.node_eq, H.head_eq, H.tail_eq, H.head_lt, H.tail_lt, H.tail_lag⟩
  value_eq := H.value_eq
  pcOk := H.pcOk
  newNode_inj := H.newNode_inj
  newNode_mem := H.newNode_mem
  wonHead_inj := H.wonHead_inj
  front_value := H.front_value
  spent_value := H.spent_value

end Facts

variable [DecidableEq ι] {s : State ι V} {o : Object ι (Op V) (Res V) (List V)} {l : List Addr}
  {h k : Nat}

/-- A thread that keeps its new node, if any, and its claim on a value moves on its own. -/
theorem goto (H : Coupled s o l h k) {t : ι} {x x' : Pc V} {y : Call (Op V) (Res V)}
    (hpc : s.pc t = x) (hx' : PcOk s.heap l h k x' y)
    (hnew : x'.newNode = x.newNode) (hwon : x'.wonHead = x.wonHead) :
    Coupled (s.goto t x') (o.setCall t y) l h k where
  toShape := ⟨H.nodup, H.node_eq, H.head_eq, H.tail_eq, H.head_lt, H.tail_lt, H.tail_lag⟩
  value_eq := H.value_eq
  pcOk := pcOk_update hx' fun t' _ => H.pcOk t'
  newNode_inj := update_inj_of_eq H.newNode_inj (.inr (hpc ▸ hnew))
  newNode_mem := fun a ha => (H.newNode_mem a ha).imp_right (update_exists (hpc ▸ hnew))
  wonHead_inj := update_inj_of_eq H.wonHead_inj (.inr (hpc ▸ hwon))
  front_value := H.front_value
  spent_value := fun i a hi ha hv => update_exists (hpc ▸ hwon) (H.spent_value i a hi ha hv)

/-- The new node of an `enqueue` is outside the chain. -/
theorem callEnqueue (H : Coupled s o l h k) {t : ι} (hidle : s.pc t = .idle) (value : V) {q : Addr}
    (hq : s.heap q = none) :
    Coupled (s.callEnqueue t value q) (o.setCall t (.pending (.enqueue value))) l h k := by
  have hmem : ∀ a ∈ l, a ≠ q := fun a ha he => H.mem_ne_none ha (he ▸ hq)
  have hnode : ∀ a ≠ q, (s.callEnqueue t value q).heap a = s.heap a :=
    fun a ha => Function.update_of_ne ha ..
  have hval : ∀ a ∈ l, valueAt (s.callEnqueue t value q).heap a = valueAt s.heap a :=
    fun a ha => congrArg (Option.bind · Node.value) (hnode a (hmem a ha))
  have hother : ∀ t' q', (s.pc t').newNode = some q' → q' ≠ q := by
    rintro t' q' hq' rfl
    exact H.newNode_heap hq' hq
  constructor
  case toShape =>
      refine ⟨H.nodup, ?_, H.head_eq, H.tail_eq, H.head_lt, H.tail_lt, H.tail_lag⟩
      intro i a ha
      rw [hnode a (hmem a (List.mem_of_getElem? ha))]
      exact H.node_eq i a ha
  case value_eq =>
      rw [Object.setCall_value, ← H.value_eq]
      exact List.map_congr_left fun a ha => hval a (List.mem_of_mem_drop ha)
  case pcOk =>
      refine pcOk_update ⟨value, rfl, Function.update_self .., fun he => hmem q he rfl⟩ fun t' _ =>
        (H.pcOk t').mono (Nat.le_refl _) (fun _ _ => rfl) H.tail_lt H.head_lt (Nat.le_refl _)
          (Nat.le_refl _) ?_ ?_
      · intro q' hq' value' hnode' hc
        exact ⟨(hnode q' (hother t' q' hq')).trans hnode', hc⟩
      · intro i a _ _ ha
        exact hval a (List.mem_of_getElem? ha)
  case newNode_inj =>
      refine update_inj H.newNode_inj fun t' q' _ hq' he => ?_
      cases hq'
      exact hother t' q he rfl
  case newNode_mem =>
      intro a ha
      by_cases haq : a = q
      · exact .inr ⟨t, by rw [State.callEnqueue, goto_pc, Function.update_self, haq, Pc.newNode]⟩
      · rw [hnode a haq] at ha
        refine (H.newNode_mem a ha).imp_right (update_exists_of_ne ?_)
        rw [store_pc, hidle]
        exact nofun
  case wonHead_inj => exact update_inj_of_eq H.wonHead_inj (.inl rfl)
  case front_value =>
      intro a ha
      rw [hval a (List.mem_of_getElem? ha)]
      exact H.front_value a ha
  case spent_value =>
      intro i a hi ha hv
      rw [hval a (List.mem_of_getElem? ha)] at hv
      refine update_exists_of_ne ?_ (H.spent_value i a hi ha hv)
      rw [store_pc, hidle]
      exact nofun

/-- The successful exchange of `(*p).next` links the new node behind the last one, to which `tail`
points. -/
theorem link (H : Coupled s o l h k) {t : ι} {q : Addr} {p : Ptr} (hpc : s.pc t = .enqCasNext q p)
    {a : Addr} {node : Node V} (hp : s.deref p = some (a, node)) (hnull : node.next = none) :
    ∃ value, o.call t = .pending (.enqueue value) ∧
      Coupled ((s.store a { node with next := some q }).goto t (.enqSwing q p))
        ({ o with value := o.value ++ [value] }.setCall t (.done .unit)) (l ++ [q]) h k := by
  obtain ⟨⟨value, hcall, hq, hqc⟩, i, hi, rfl⟩ := hpc ▸ H.pcOk t
  refine ⟨value, hcall, ?_⟩
  have hik := H.tail_lt
  obtain ⟨b, v, hb, hnode, hderef⟩ := H.deref_eq (i := i) (by omega)
  rw [hderef, Option.some.injEq, Prod.mk.injEq] at hp
  obtain ⟨rfl, rfl⟩ := hp
  have hlast : l.length ≤ i + 1 := List.getElem?_eq_none_iff.mp hnull
  have hki : k = i := by omega
  subst hki
  set heap' : Heap V := Function.update s.heap b (some ⟨v, some q⟩) with hheap'
  have hqb : q ≠ b := fun he => hqc (he ▸ List.mem_of_getElem? hb)
  have hval : ∀ a, valueAt heap' a = valueAt s.heap a := by
    intro a
    rw [hheap', valueAt_update]
    split
    · rename_i he
      rw [he, valueAt, hnode, Option.bind_some]
    · rfl
  have hlen : (l ++ [q]).length = l.length + 1 := List.length_append
  have hc : ∀ j < l.length, (l ++ [q])[j]? = l[j]? := fun j hj => List.getElem?_append_left hj
  have hcq : (l ++ [q])[k + 1]? = some q := by
    rw [show k + 1 = l.length by omega]
    exact List.getElem?_concat_length
  constructor
  case toShape =>
      constructor
      case nodup =>
          refine List.nodup_append.mpr ⟨H.nodup, List.nodup_singleton q, fun a ha b' hb' he => hqc ?_⟩
          rwa [← List.mem_singleton.mp hb', ← he]
      case node_eq =>
          intro j a ha
          show ∃ value, heap' a = _
          by_cases hj : j < l.length
          · rw [hc j hj] at ha
            by_cases hjk : j = k
            · subst hjk
              cases hb.symm.trans ha
              exact ⟨v, by rw [hheap', Function.update_self, hcq]⟩
            · have hab : a ≠ b := fun he =>
                hjk ((List.getElem?_inj hj H.nodup).mp (ha.trans (he ▸ hb.symm)))
              rw [hheap', Function.update_of_ne hab, hc (j + 1) (by omega)]
              exact H.node_eq j a ha
          · have hjk : j = k + 1 := by
              have := (List.getElem?_eq_some_iff.mp ha).1
              omega
            subst hjk
            cases hcq.symm.trans ha
            refine ⟨some value, ?_⟩
            rw [hheap', Function.update_of_ne hqb, hq, List.getElem?_eq_none (by omega)]
            rfl
      case head_eq => exact H.head_eq.trans (hc h H.head_lt).symm
      case tail_eq => exact H.tail_eq.trans (hc k H.tail_lt).symm
      case head_lt => exact hlen ▸ Nat.lt_succ_of_lt H.head_lt
      case tail_lt => exact hlen ▸ Nat.lt_succ_of_lt H.tail_lt
      case tail_lag => omega
  case value_eq =>
      show List.map (valueAt heap') _ = List.map some (o.value ++ [value])
      rw [List.drop_append_of_le_length H.head_lt, List.map_append, List.map_append, ← H.value_eq,
        List.map_congr_left fun a _ => hval a, List.map_singleton, List.map_singleton, hval, valueAt, hq,
        Option.bind_some, Node.new]
  case pcOk =>
      refine pcOk_update ⟨rfl, k, Nat.le_refl _, by omega, (hc k H.tail_lt).symm, hcq.symm⟩
        fun t' ht' => (H.pcOk t').mono (by omega) hc H.tail_lt H.head_lt (Nat.le_refl _)
          (Nat.le_refl _) ?_ fun i a _ _ _ => hval a
      intro q' hq' value' hnode' hqc'
      have hne : q' ≠ q := by
        rintro rfl
        exact ht' (H.newNode_inj _ _ _ hq' (by rw [hpc, Pc.newNode]))
      refine ⟨?_, by simpa [hne] using hqc'⟩
      have hqb' : q' ≠ b := fun he => hqc' (he ▸ List.mem_of_getElem? hb)
      exact (Function.update_of_ne hqb' ..).trans hnode'
  case newNode_inj => exact update_inj_of_eq H.newNode_inj (.inl rfl)
  case newNode_mem =>
      intro a ha
      by_cases haq : a = q
      · exact .inl (List.mem_append_right l (List.mem_singleton.mpr haq))
      · have ha' : s.heap a ≠ none := by
          by_cases hab : a = b
          · rw [hab, hnode]
            exact Option.some_ne_none _
          · rwa [goto_heap, store_heap, Function.update_of_ne hab] at ha
        refine (H.newNode_mem a ha').imp (List.mem_append_left [q]) (update_exists_of_ne ?_)
        rw [store_pc, hpc, Pc.newNode]
        exact fun he => haq (Option.some.inj he).symm
  case wonHead_inj => exact update_inj_of_eq H.wonHead_inj (.inl rfl)
  case front_value =>
      intro a ha
      rw [hc 0 (by have := H.head_lt; omega)] at ha
      exact (hval a).trans (H.front_value a ha)
  case spent_value =>
      intro i a hi ha hv
      have hlt := H.head_lt
      rw [hc (i + 1) (by omega)] at ha
      rw [hc i (by omega)]
      refine update_exists_of_ne ?_ (H.spent_value i a hi ha (hval a ▸ hv))
      rw [store_pc, hpc]
      exact nofun

/-- The successful exchange of `head` removes the front value, which its thread has still to take
from the node that is now the head. -/
theorem advance (H : Coupled s o l h k) {t : ι} {p n : Ptr} (hpc : s.pc t = .deqCasHead p n)
    (hhead : s.head = p) :
    ∃ value rest, o.call t = .pending .dequeue ∧ o.value = value :: rest ∧
      Coupled ({ s with head := n }.goto t (.deqLoadTaken p))
        ({ o with value := rest }.setCall t (.done (.value (some value)))) l (h + 1) k := by
  obtain ⟨hcall, i, hi, hlt, rfl, rfl⟩ := hpc ▸ H.pcOk t
  have hih : h = i := (List.getElem?_inj H.head_lt H.nodup).mp (H.head_eq.symm.trans hhead)
  subst hih
  obtain ⟨a, v, ha, -, -⟩ := H.deref_eq hlt
  obtain ⟨value, rest, ho, hva, hrest⟩ := H.value_cons ha
  refine ⟨value, rest, hcall, ho, ?_⟩
  -- a claim on an older node is not the new claim on the node after the old head
  have hclaim : ∀ t' i, i < h → (s.pc t').wonHead = some l[i]? → l[i]? ≠ l[h]? :=
    fun t' i hi' _ he => absurd ((List.getElem?_inj (by omega) H.nodup).mp he) (by omega)
  constructor
  case toShape => exact ⟨H.nodup, H.node_eq, rfl, H.tail_eq, hlt, H.tail_lt, H.tail_lag⟩
  case value_eq => exact hrest
  case pcOk =>
      refine pcOk_update ⟨h, a, value, by omega, rfl, ha, hva, rfl⟩ fun t' _ => (H.pcOk t').mono
        (Nat.le_refl _) (fun _ _ => rfl) H.tail_lt H.head_lt (Nat.le_refl _) (Nat.le_succ h)
        (fun _ _ _ hq hc => ⟨hq, hc⟩) fun _ _ _ _ _ => rfl
  case newNode_inj => exact update_inj_of_eq H.newNode_inj (.inl rfl)
  case newNode_mem =>
      exact fun a ha => (H.newNode_mem a ha).imp_right
        (update_exists (g := Pc.newNode) (by rw [hpc]; rfl))
  case wonHead_inj =>
      refine update_inj H.wonHead_inj fun t' p' _ hp' hwon => ?_
      cases hp'
      obtain ⟨i, hi', hwi⟩ := (H.pcOk t').wonHead_lt hwon
      exact hclaim t' i hi' (hwi ▸ hwon) hwi.symm
  case front_value => exact H.front_value
  case spent_value =>
      intro i b hi' hb hv
      by_cases hih : i = h
      · subst hih
        exact ⟨t, by rw [goto_pc, Function.update_self, Pc.wonHead]⟩
      · refine update_exists_of_ne ?_ (H.spent_value i b (by omega) hb hv)
        rw [hpc]
        exact nofun

/-- `value.take()` returns the value removed by this thread and leaves the node without one. -/
theorem take (H : Coupled s o l h k) {t : ι} {p n : Ptr} (hpc : s.pc t = .deqTake p n) :
    ∃ a node, s.deref n = some (a, node) ∧
      Coupled ((s.store a { node with value := none }).goto t (.deqDrop p node.value))
        (o.setCall t (.done (.value node.value))) l h k ∧
      o.call t = .done (.value node.value) := by
  obtain ⟨i, a, value, hi, rfl, ha, hva, hcall, rfl⟩ := hpc ▸ H.pcOk t
  obtain ⟨v, hnode⟩ := H.node_eq (i + 1) a ha
  obtain rfl : v = some value := by
    rw [← hva, valueAt, hnode, Option.bind_some]
  refine ⟨a, _, deref_some hnode, ?_, hcall⟩
  set heap' : Heap V := Function.update s.heap a (some ⟨none, l[i + 1 + 1]?⟩) with hheap'
  have hval : ∀ b ≠ a, valueAt heap' b = valueAt s.heap b := by
    intro b hb
    rw [hheap', valueAt_update, if_neg hb]
  have hhead := H.head_lt
  have hindex : ∀ j, l[j]? = some a → j = i + 1 := fun j hj =>
    ((List.getElem?_inj (by omega) H.nodup).mp (ha.trans hj.symm)).symm
  constructor
  case toShape =>
      refine ⟨H.nodup, ?_, H.head_eq, H.tail_eq, H.head_lt, H.tail_lt, H.tail_lag⟩
      intro j b hb
      show ∃ value, heap' b = _
      by_cases hba : b = a
      · subst hba
        rw [hindex j hb]
        exact ⟨none, Function.update_self ..⟩
      · rw [hheap', Function.update_of_ne hba]
        exact H.node_eq j b hb
  case value_eq =>
      rw [Object.setCall_value, ← H.value_eq]
      refine List.map_congr_left fun b hb => hval b ?_
      rintro rfl
      obtain ⟨j, hj⟩ := List.mem_iff_getElem?.mp hb
      rw [List.getElem?_drop] at hj
      have := hindex _ hj
      omega
  case pcOk =>
      refine pcOk_update ⟨rfl, i, hi, rfl⟩ fun t' ht' => (H.pcOk t').mono (Nat.le_refl _)
        (fun _ _ => rfl) H.tail_lt H.head_lt (Nat.le_refl _) (Nat.le_refl _) ?_ ?_
      · intro q hq value' hnode' hqc
        refine ⟨?_, hqc⟩
        have hqa : q ≠ a := fun he => hqc (he ▸ List.mem_of_getElem? ha)
        exact (Function.update_of_ne hqa ..).trans hnode'
      · -- two dequeues that still have to take claim different nodes
        rintro j b hj hwon hb
        refine hval b ?_
        rintro rfl
        have hji : j = i := by
          have := hindex _ hb
          omega
        subst hji
        exact ht' (H.wonHead_inj _ _ _ hwon (by rw [hpc, Pc.wonHead]))
  case newNode_inj => exact update_inj_of_eq H.newNode_inj (.inl rfl)
  case newNode_mem =>
      intro b hb
      have hb' : s.heap b ≠ none := by
        by_cases hba : b = a
        · rw [hba, hnode]
          exact Option.some_ne_none _
        · rwa [goto_heap, store_heap, Function.update_of_ne hba] at hb
      exact (H.newNode_mem b hb').imp_right
        (update_exists (g := Pc.newNode) (by rw [store_pc, hpc]; rfl))
  case wonHead_inj => exact update_inj_of_eq H.wonHead_inj (.inl rfl)
  case front_value =>
      intro b hb
      refine (hval b ?_).trans (H.front_value b hb)
      rintro rfl
      have := hindex 0 hb
      omega
  case spent_value =>
      intro j b hj hb hv
      have hba : b ≠ a := by
        rintro rfl
        rw [goto_heap] at hv
        exact hv (by rw [store_heap, valueAt_update, if_pos rfl])
      refine update_exists_of_ne ?_ (H.spent_value j b hj hb (by rwa [← hval b hba]))
      rw [store_pc, hpc, Pc.wonHead, ne_eq, Option.some.injEq]
      intro hij
      have := (List.getElem?_inj (by omega) H.nodup).mp hij
      subst this
      exact hba (Option.some.inj (hb.symm.trans ha))

end Coupled

end SmallTrial.Queue

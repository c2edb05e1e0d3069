import SmallTrial.TransitionObject

/-! The two queues of the `queue` crate. `LockBasedQueue` is a list behind a mutex, so each call is
one atomic operation on the list. `LockFreeQueue` is modelled step by step: every atomic load, every
`compare_exchange`, `value.take()` and `drop_in_place` of a thread is one step on a sequentially
consistent heap. Nodes are leaked boxes and never deallocated; `drop_in_place` runs the destructor
of the value a node still holds and leaves the bits of the node as they are. -/

namespace SmallTrial.Queue

open Transition

variable {ι V : Type*}

/-- The calls of both queues. -/
inductive Op (V : Type*) where
  | enqueue (value : V)
  | dequeue
  deriving DecidableEq

inductive Res (V : Type*) where
  | unit
  | value (res : Option V)
  deriving DecidableEq

namespace LockBasedQueue

def new : List V := []

/-- `self.inner.lock().unwrap().push_back(value)` -/
def enqueue (inner : List V) (value : V) : List V := inner ++ [value]

/-- `self.inner.lock().unwrap().pop_front()` -/
def dequeue (inner : List V) : Option V × List V := (inner.head?, inner.tail)

/-- The sequential specification: one call under the lock. -/
def apply : Op V → List V → Res V × List V
  | .enqueue value, inner => (.unit, enqueue inner value)
  | .dequeue, inner => (.value (dequeue inner).1, (dequeue inner).2)

end LockBasedQueue

abbrev Addr := Nat

/-- The content of an `AtomicPtr`; `none` is `ptr::null_mut()`. -/
abbrev Ptr := Option Addr

structure Node (V : Type*) where
  value : Option V
  next : Ptr

def Node.new (value : V) : Node V := ⟨some value, none⟩

def Node.dummy : Node V := ⟨none, none⟩

/-- The next atomic step of a thread, with the local variables that are still needed. In `enqueue`,
`q` is the new node; `p` and `n` are the pointers the source reads into `p` and out of `(*p).next`. -/
inductive Pc (V : Type*) where
  | idle
  /-- `let mut p = self.tail.load(..)`, before the loop -/
  | enqFirstLoad (q : Addr)
  /-- `p = self.tail.load(..)` -/
  | enqLoadTail (q : Addr)
  /-- `(*p).next.compare_exchange(null, q)` -/
  | enqCasNext (q : Addr) (p : Ptr)
  /-- the load of `(*p).next` after a failed exchange -/
  | enqLoadNext (q : Addr) (p : Ptr)
  /-- `self.tail.compare_exchange(p, n)` with the pointer just loaded -/
  | enqCasTail (q : Addr) (p n : Ptr)
  /-- `self.tail.compare_exchange(p, q)` after the loop -/
  | enqSwing (q : Addr) (p : Ptr)
  /-- `let mut p = self.head.load(..)`, before the loop -/
  | deqFirstLoad
  /-- `p = self.head.load(..)` -/
  | deqLoadHead
  /-- `(*p).next.load(..) == null` -/
  | deqCheck (p : Ptr)
  /-- the load of `(*p).next` for the exchange -/
  | deqLoadNext (p : Ptr)
  /-- `self.head.compare_exchange(p, n)` -/
  | deqCasHead (p n : Ptr)
  /-- the load of `(*p).next` after the loop -/
  | deqLoadTaken (p : Ptr)
  /-- `(*n).value.take()` -/
  | deqTake (p n : Ptr)
  /-- `p.drop_in_place()` -/
  | deqDrop (p : Ptr) (res : Option V)
  | ret (res : Res V)
  /-- a null or dangling pointer was dereferenced -/
  | fault

/-- Whether the queue is still shared, being dropped (the walk stands at `cur`), or gone. -/
inductive Life where
  | alive
  | dropping (cur : Ptr)
  | dropped
  deriving DecidableEq

structure State (ι V : Type*) where
  heap : Addr → Option (Node V)
  head : Ptr
  tail : Ptr
  pc : ι → Pc V
  life : Life

/-- What a step of a thread did. -/
inductive Act (V : Type*) where
  | callEnqueue (value : V) (q : Addr)
  | callDequeue
  | load
  | casNext (ok : Bool)
  | casTail (ok : Bool)
  | checkNull (null : Bool)
  | casHead (ok : Bool)
  | take (n : Addr) (value : Option V)
  | dropInPlace (p : Addr) (value : Option V)
  | ret (res : Res V)
  | fault
  deriving DecidableEq

/-- What a step of the system did: a step of a thread, or one of `Drop::drop`. -/
inductive Event (ι V : Type*) where
  | act (t : ι) (a : Act V)
  | dropStart
  | dropNode (cur : Addr) (value : Option V)
  | dropEnd
  deriving DecidableEq

/-- `LockFreeQueue::new`, the dummy node being allocated at `p`. -/
def State.new (p : Addr) : State ι V where
  heap := Function.update (fun _ => none) p (some .dummy)
  head := some p
  tail := some p
  pc := fun _ => .idle
  life := .alive

namespace State

/-- The node behind a pointer, unless it is null or dangling. -/
def deref (s : State ι V) (p : Ptr) : Option (Addr × Node V) :=
  p.bind fun a => (s.heap a).map (Prod.mk a)

def store (s : State ι V) (a : Addr) (node : Node V) : State ι V :=
  { s with heap := Function.update s.heap a (some node) }

variable [DecidableEq ι]

def goto (s : State ι V) (t : ι) (c : Pc V) : State ι V :=
  { s with pc := Function.update s.pc t c }

/-- The step of thread `t` in the code of `enqueue` or `dequeue` it stands in. -/
def threadStep (s : State ι V) (t : ι) : Option (State ι V × Act V) :=
  match s.pc t with
  | .idle => none
  | .enqFirstLoad q => some (s.goto t (.enqLoadTail q), .load)
  | .enqLoadTail q => some (s.goto t (.enqCasNext q s.tail), .load)
  | .enqCasNext q p =>
      match s.deref p with
      | none => some (s.goto t .fault, .fault)
      | some (a, node) =>
          if node.next = none then
            some ((s.store a { node with next := some q }).goto t (.enqSwing q p), .casNext true)
          else some (s.goto t (.enqLoadNext q p), .casNext false)
  | .enqLoadNext q p =>
      match s.deref p with
      | none => some (s.goto t .fault, .fault)
      | some (_, node) => some (s.goto t (.enqCasTail q p node.next), .load)
  | .enqCasTail q p n =>
      if s.tail = p then some ({ s with tail := n }.goto t (.enqLoadTail q), .casTail true)
      else some (s.goto t (.enqLoadTail q), .casTail false)
  | .enqSwing q p =>
      if s.tail = p then some ({ s with tail := some q }.goto t (.ret .unit), .casTail true)
      else some (s.goto t (.ret .unit), .casTail false)
  | .deqFirstLoad => some (s.goto t .deqLoadHead, .load)
  | .deqLoadHead => some (s.goto t (.deqCheck s.head), .load)
  | .deqCheck p =>
      match s.deref p with
      | none => some (s.goto t .fault, .fault)
      | some (_, node) =>
          if node.next = none then some (s.goto t (.ret (.value none)), .checkNull true)
          else some (s.goto t (.deqLoadNext p), .checkNull false)
  | .deqLoadNext p =>
      match s.deref p with
      | none => some (s.goto t .fault, .fault)
      | some (_, node) => some (s.goto t (.deqCasHead p node.next), .load)
  | .deqCasHead p n =>
      if s.head = p then some ({ s with head := n }.goto t (.deqLoadTaken p), .casHead true)
      else some (s.goto t .deqLoadHead, .casHead false)
  | .deqLoadTaken p =>
      match s.deref p with
      | none => some (s.goto t .fault, .fault)
      | some (_, node) => some (s.goto t (.deqTake p node.next), .load)
  | .deqTake p n =>
      match s.deref n with
      | none => some (s.goto t .fault, .fault)
      | some (a, node) =>
          some ((s.store a { node with value := none }).goto t (.deqDrop p node.value),
            .take a node.value)
  | .deqDrop p res =>
      match s.deref p with
      | none => some (s.goto t .fault, .fault)
      | some (a, node) => some (s.goto t (.ret (.value res)), .dropInPlace a node.value)
  | .ret res => some (s.goto t .idle, .ret res)
  | .fault => none

/-- `enqueue(value)` is called and `Box::new` puts the new node at `q`. -/
def callEnqueue (s : State ι V) (t : ι) (value : V) (q : Addr) : State ι V :=
  (s.store q (.new value)).goto t (.enqFirstLoad q)

def callDequeue (s : State ι V) (t : ι) : State ι V := s.goto t .deqFirstLoad

end State

/-- What the scheduler may let a thread do: start a call or take its next atomic step. -/
inductive Move (V : Type*) where
  | enqueue (value : V) (q : Addr)
  | dequeue
  | step

/-- The scheduler's choice carried out, if it is possible. -/
def State.move [DecidableEq ι] (s : State ι V) : ι × Move V → Option (State ι V × Event ι V)
  | (t, .enqueue value q) =>
      match s.life, s.pc t, s.heap q with
      | .alive, .idle, none => some (s.callEnqueue t value q, .act t (.callEnqueue value q))
      | _, _, _ => none
  | (t, .dequeue) =>
      match s.life, s.pc t with
      | .alive, .idle => some (s.callDequeue t, .act t .callDequeue)
      | _, _ => none
  | (t, .step) => (s.threadStep t).map fun r => (r.1, .act t r.2)

variable [DecidableEq ι]

/-- The steps of the system. Calls need a shared queue; `Drop::drop` takes `&mut self`, so it starts
when no call is in progress, and no call starts afterwards. -/
inductive Step : State ι V → Event ι V → State ι V → Prop where
  | enqueue (s : State ι V) (t : ι) (value : V) (q : Addr) :
      s.life = .alive → s.pc t = .idle → s.heap q = none →
      Step s (.act t (.callEnqueue value q)) (s.callEnqueue t value q)
  | dequeue (s : State ι V) (t : ι) :
      s.life = .alive → s.pc t = .idle → Step s (.act t .callDequeue) (s.callDequeue t)
  | thread (s s' : State ι V) (t : ι) (a : Act V) :
      s.threadStep t = some (s', a) → Step s (.act t a) s'
  | dropStart (s : State ι V) :
      s.life = .alive → (∀ t, s.pc t = .idle) →
      Step s .dropStart { s with life := .dropping s.head }
  | dropNode (s : State ι V) (cur : Ptr) (a : Addr) (node : Node V) :
      s.life = .dropping cur → s.deref cur = some (a, node) →
      Step s (.dropNode a node.value) { s with life := .dropping node.next }
  | dropEnd (s : State ι V) :
      s.life = .dropping none → Step s .dropEnd { s with life := .dropped }

theorem step_of_move {s s' : State ι V} {m : ι × Move V} {e : Event ι V}
    (h : s.move m = some (s', e)) : Step s e s' := by
  obtain ⟨t, m⟩ := m
  cases m with
  | enqueue value q =>
      simp only [State.move] at h
      split at h
      · rename_i hlife hpc hq
        cases h
        exact .enqueue s t value q hlife hpc hq
      · cases h
  | dequeue =>
      simp only [State.move] at h
      split at h
      · rename_i hlife hpc
        cases h
        exact .dequeue s t hlife hpc
      · cases h
  | step =>
      obtain ⟨⟨s₁, a⟩, hthread, hr⟩ := Option.map_eq_some_iff.mp h
      cases hr
      exact .thread s s₁ t a hthread

end SmallTrial.Queue

import SmallTrial.PointerChain
import SmallTrial.QueueHistory
import SmallTrial.QueueProgress

/-! The shape of `LockFreeQueue` along a run. The nodes that have been linked are one chain that starts at
the first dummy node; each `next` is written once, and `head` and `tail` walk along the chain node by
node. -/

namespace SmallTrial.Queue

open Transition Pointer

variable {ι V : Type*}

/-- `(*a).next`; null where no node is. -/
def nextOf (s : State ι V) (a : Addr) : Ptr := (s.heap a).bind Node.next

theorem nextOf_of_heap {s : State ι V} {a : Addr} {node : Node V} (h : s.heap a = some node) :
    nextOf s a = node.next := by
  rw [nextOf, h, Option.bind_some]

theorem Shape.chain {s : State ι V} {p : Addr} {l : List Addr} {h k : Nat} (H : Shape s l h k)
    (hp : l[0]? = some p) : Chain (nextOf s) p l where
  first := hp
  nodup := H.nodup
  next_eq := by
    intro i a ha
    obtain ⟨value, hnode⟩ := H.node_eq i a ha
    rw [nextOf_of_heap hnode]

theorem Follows.exists_next {s : State ι V} {ptr ptr' : Ptr} (h : Follows s ptr ptr') :
    ∃ a b, ptr = some a ∧ Next (nextOf s) a b ∧ ptr' = some b := by
  obtain ⟨a, node, b, hptr, hnode, hnext, hptr'⟩ := h
  exact ⟨a, b, hptr, (nextOf_of_heap hnode).trans hnext, hptr'⟩

/-- The step of the stage changes `(*a).next`. -/
def WritesNext (x : Stage (State ι V) (Event ι V)) (a : Addr) : Prop := nextOf x.after a ≠ nextOf x.before a

/-- The values that a pointer has been given, in order. -/
def moves (ptr : State ι V → Ptr) (tr : List (Stage (State ι V) (Event ι V))) : List Ptr :=
  (tr.filter (Stage.moves ptr)).map fun x => ptr x.after

theorem moves_snoc (ptr : State ι V → Ptr) (tr : List (Stage (State ι V) (Event ι V)))
    (x : Stage (State ι V) (Event ι V)) :
    moves ptr (tr ++ [x]) = moves ptr tr ++ if ptr x.after = ptr x.before then [] else [ptr x.after] := by
  rw [moves, List.filter_append, List.map_append, ← moves]
  congr 1
  by_cases hsame : ptr x.after = ptr x.before
  · rw [List.filter_cons_of_neg (by simp [Stage.moves, hsame]), if_pos hsame]
    rfl
  · rw [List.filter_cons_of_pos (by simp [Stage.moves, hsame]), if_neg hsame]
    rfl

variable [DecidableEq ι]

/-! ### What a step does -/

namespace Coupled

variable {s s' : State ι V} {o : Fifo ι V} {l : List Addr} {h k : Nat} {e : Event ι V}

/-- A step writes no `next`, or that of a linked node, which was null: to a node that is not linked. -/
theorem nextOf_step (H : Coupled s o l h k) (hstep : Step s e s') :
    (∀ a, nextOf s' a = nextOf s a) ∨
      ∃ b q, b ∈ l ∧ q ∉ l ∧ nextOf s b = none ∧ nextOf s' = Function.update (nextOf s) b (some q) := by
  cases hstep with
  | enqueue t value q _ _ hq =>
      refine .inl fun a => ?_
      by_cases ha : a = q
      · rw [ha, nextOf, nextOf, hq, State.callEnqueue, goto_heap, store_heap, Function.update_self]
        rfl
      · rw [nextOf, State.callEnqueue, goto_heap, store_heap, Function.update_of_ne ha, nextOf]
  | dequeue | dropStart | dropNode | dropEnd => exact .inl fun _ => rfl
  | thread _ t a hthread =>
      rcases threadStep_links hthread (H.ne_fault hthread) with
        ⟨q, ptr, b, node, -, hpc, hderef, hnull, -, hheap⟩ | ⟨-, -, hnext⟩
      · obtain ⟨hb, hnode, hq⟩ := H.enqCasNext hpc hderef
        refine .inr ⟨b, q, hb, hq, (nextOf_of_heap hnode).trans hnull, funext fun a => ?_⟩
        by_cases ha : a = b
        · rw [nextOf, hheap, ha, Function.update_self, Function.update_self]
          rfl
        · rw [nextOf, hheap, Function.update_of_ne ha, Function.update_of_ne ha, nextOf]
      · refine .inl fun b => ?_
        cases hb : s.heap b with
        | none => rw [nextOf, nextOf, hb, (threadStep_heap hthread b).mpr hb]
        | some node =>
            obtain ⟨value, hnode⟩ := hnext b node hb
            rw [nextOf_of_heap hnode, nextOf_of_heap hb]

theorem head_moves (H : Coupled s o l h k) (hstep : Step s e s') :
    s'.head = s.head ∨ Follows s s.head s'.head := by
  cases e with
  | act t a => exact (H.head_loop hstep t).2.imp_right And.left
  | dropStart | dropNode | dropEnd =>
      cases hstep
      exact .inl rfl

theorem tail_moves (H : Coupled s o l h k) (hstep : Step s e s') :
    s'.tail = s.tail ∨ Follows s s.tail s'.tail := by
  cases e with
  | act t a => exact (H.tail_loop hstep t).2.imp_right And.left
  | dropStart | dropNode | dropEnd =>
      cases hstep
      exact .inl rfl

end Coupled

/-- What a step of the queue may do: write one `next`, that of the last node, to a node that is not linked,
and move `head` or `tail` to the next node. -/
structure StageShape (p : Addr) (x : Stage (State ι V) (Event ι V)) : Prop where
  next : ∀ a, WritesNext x a → Reached (nextOf x.before) p a ∧ nextOf x.before a = none ∧
    ∃ q, nextOf x.after a = some q ∧ ¬Reached (nextOf x.before) p q
  head : x.after.head = x.before.head ∨ Follows x.before x.before.head x.after.head
  tail : x.after.tail = x.before.tail ∨ Follows x.before x.before.tail x.after.tail

section Chain

variable {p : Addr} {tr : List (Event ι V)} {s s' : State ι V} {o : Fifo ι V} {h k : Nat} {e : Event ι V}

theorem coupled_of_run (hrun : Run Step (State.new p) tr s) : ∃ o h k, Coupled s o (chain p tr) h k := by
  obtain ⟨o, -, ⟨l, h, k, HC⟩, -⟩ := simulates_forward.run ⟨[p], 0, 0, Coupled.init p⟩ hrun
  obtain rfl := (History.of_run hrun).chain_eq HC
  exact ⟨o, h, k, HC⟩

theorem Coupled.chain (H : Coupled s o (chain p tr) h k) : Chain (nextOf s) p (chain p tr) :=
  H.toShape.chain rfl

theorem chain_grows (p : Addr) (tr : List (Event ι V)) (e : Event ι V) :
    chain p tr <+: chain p (tr ++ [e]) := by
  have hlinked : linked tr <+: linked (tr ++ [e]) := by
    rw [linked_snoc, linked]
    unfold Links.next
    split
    · exact List.prefix_rfl
    · exact List.prefix_append _ _
    · exact List.prefix_rfl
  exact List.cons_prefix_cons.mpr ⟨rfl, hlinked.map Prod.fst⟩

theorem Coupled.stageShape (H : Coupled s o (Queue.chain p tr) h k) (hstep : Step s e s') :
    StageShape p ⟨s, e, s'⟩ where
  next := by
    intro a ha
    rcases H.nextOf_step hstep with hsame | ⟨b, q, hb, hq, hnull, hnext⟩
    · exact absurd (hsame a) ha
    · obtain rfl : a = b := by
        by_contra hab
        rw [WritesNext, hnext, Function.update_of_ne hab] at ha
        exact ha rfl
      rw [hnext, Function.update_self, H.chain.reached_iff]
      exact ⟨hb, hnull, q, rfl, fun hreached => hq (H.chain.reached_iff.mp hreached)⟩
  head := H.head_moves hstep
  tail := H.tail_moves hstep

end Chain

/-! ### What a run does -/

/-- What a run that started with the dummy node at `p` has done to the nodes and the pointers. -/
structure RunShape (p : Addr) (tr : List (Stage (State ι V) (Event ι V))) (s : State ι V) : Prop where
  stages : ∀ x ∈ tr, StageShape p x
  written : ∀ x ∈ tr, ∀ a, WritesNext x a → nextOf s a ≠ none
  once : tr.Pairwise fun x y => ∀ a, WritesNext x a → ¬WritesNext y a
  heads : Passed (chain p (tr.map Stage.event)) s.head (some p :: moves State.head tr)
  tails : Passed (chain p (tr.map Stage.event)) s.tail (some p :: moves State.tail tr)

section Run

variable {p : Addr} {tr : List (Stage (State ι V) (Event ι V))} {s s' : State ι V} {o : Fifo ι V}
  {h k : Nat} {x : Stage (State ι V) (Event ι V)}

/-- A pointer that stays or moves to the next node has passed one more node at most. -/
theorem passed_snoc {ptr : State ι V → Ptr} (HC : Coupled s o (chain p (tr.map Stage.event)) h k)
    (H : Passed (chain p (tr.map Stage.event)) (ptr s) (some p :: moves ptr tr)) (hbefore : x.before = s)
    (hmove : ptr x.after = ptr x.before ∨ Follows x.before (ptr x.before) (ptr x.after)) :
    Passed (chain p ((tr ++ [x]).map Stage.event)) (ptr x.after) (some p :: moves ptr (tr ++ [x])) := by
  rw [List.map_append, List.map_singleton, moves_snoc]
  refine Passed.grow ?_ (chain_grows p _ _)
  rw [hbefore] at hmove ⊢
  by_cases hsame : ptr x.after = ptr s
  · rw [if_pos hsame, List.append_nil, hsame]
    exact H
  · obtain ⟨a, b, ha, hab, hb⟩ := (hmove.resolve_left hsame).exists_next
    rw [if_neg hsame, hb, ← List.cons_append]
    exact H.move HC.chain ha hab

namespace RunShape

theorem init (p : Addr) : RunShape p [] (State.new p : State ι V) where
  stages := List.forall_mem_nil _
  written := List.forall_mem_nil _
  once := .nil
  heads := ⟨0, Nat.one_pos, rfl, rfl⟩
  tails := ⟨0, Nat.one_pos, rfl, rfl⟩

theorem snoc (H : RunShape p tr s) (HC : Coupled s o (chain p (tr.map Stage.event)) h k)
    (hlast : Recorded Step s x s') : RunShape p (tr ++ [x]) s' := by
  obtain ⟨rfl, hstep, rfl⟩ := hlast
  have hx : StageShape p x := HC.stageShape hstep
  constructor
  case stages =>
      intro y hy
      rcases List.mem_append.mp hy with hy | hy
      · exact H.stages y hy
      · rw [List.mem_singleton.mp hy]
        exact hx
  case written =>
      intro y hy a ha
      by_cases hwrites : WritesNext x a
      · obtain ⟨-, -, q, hq, -⟩ := hx.next a hwrites
        rw [hq]
        exact Option.some_ne_none q
      · have hsame : nextOf x.after a = nextOf x.before a := not_not.mp hwrites
        rcases List.mem_append.mp hy with hy | hy
        · rw [hsame]
          exact H.written y hy a ha
        · rw [List.mem_singleton.mp hy] at ha
          exact absurd ha hwrites
  case once =>
      refine List.pairwise_append.mpr ⟨H.once, List.pairwise_singleton _ x, fun y hy z hz a ha => ?_⟩
      rw [List.mem_singleton.mp hz]
      -- what has been written is not null any more
      exact fun hwrites => H.written y hy a ha (hx.next a hwrites).2.1
  case heads => exact passed_snoc HC H.heads rfl hx.head
  case tails => exact passed_snoc HC H.tails rfl hx.tail

theorem of_run (hrun : Run (Recorded Step) (State.new p) tr s) : RunShape p tr s := by
  refine hrun.invariant (RunShape p) (init p) fun tr a x b hrun H hlast => ?_
  obtain ⟨o, h, k, HC⟩ := coupled_of_run hrun.events
  exact H.snoc HC hlast

end RunShape

end Run

/-! ### The shape -/

/-- The shape of the queue: `l` are the nodes that have been linked, with `head` and `tail` at the places
`h` and `k`. -/
structure QueueShape (p : Addr) (l : List Addr) (s : State ι V) (h k : Nat) : Prop where
  chain : Chain (nextOf s) p l
  linked : ∀ a, Reached (nextOf s) p a ↔ a ∈ l
  acyclic : ∀ a ∈ l, ¬Relation.TransGen (Next (nextOf s)) a a
  allocated : ∀ a ∈ l, s.heap a ≠ none
  last : ∀ a ∈ l, nextOf s a = none ↔ l.getLast? = some a
  head : s.head = l[h]?
  tail : s.tail = l[k]?
  head_lt : h < l.length
  tail_lt : k < l.length
  tail_lag : l.length ≤ k + 2
  head_lag : h ≤ k + 1

/-- **Shape of `LockFreeQueue`.** -/
theorem lockFreeQueue_shape {p : Addr} {tr : List (Stage (State ι V) (Event ι V))} {s : State ι V}
    (hrun : Run (Recorded Step) (State.new p) tr s) :
    ∃ h k, QueueShape p (chain p (tr.map Stage.event)) s h k ∧ (∀ x ∈ tr, StageShape p x) ∧
      tr.Pairwise (fun x y => ∀ a, WritesNext x a → ¬WritesNext y a) ∧
      (some p :: moves State.head tr).Nodup ∧
      some p :: moves State.head tr = ((chain p (tr.map Stage.event)).take (h + 1)).map some ∧
      some p :: moves State.tail tr = ((chain p (tr.map Stage.event)).take (k + 1)).map some := by
  obtain ⟨o, h, k, HC⟩ := coupled_of_run hrun.events
  have H := RunShape.of_run hrun
  have hlag := HC.tail_lag
  have hlt := HC.head_lt
  refine ⟨h, k, ?_, H.stages, H.once, H.heads.nodup HC.nodup, H.heads.eq_take HC.nodup HC.head_eq,
    H.tails.eq_take HC.nodup HC.tail_eq⟩
  exact {
    chain := HC.chain
    linked := fun a => HC.chain.reached_iff
    acyclic := fun a => HC.chain.acyclic
    allocated := fun a => HC.mem_ne_none
    last := fun a => HC.chain.next_eq_none_iff
    head := HC.head_eq
    tail := HC.tail_eq
    head_lt := hlt
    tail_lt := HC.tail_lt
    tail_lag := hlag
    head_lag := by omega }

/-- Thread `true` links its node and stops before it moves `tail`; thread `false` moves `head` past it. -/
def beyondTail : List (Bool × Move Nat) :=
  (true, .enqueue 10 1) :: List.replicate 3 (true, .step) ++
    (false, .dequeue) :: List.replicate 5 (false, .step)

theorem lockFreeQueue_shape_beyond :
    ∃ (tr : List (Stage (State Bool Nat) (Event Bool Nat))) (s : State Bool Nat),
      Run (Recorded Step) (State.new 0) tr s ∧ QueueShape 0 [0, 1] s 1 0 := by
  have hreplay : (replay State.move (State.new 0) beyondTail).map
      (fun r => (linked r.2, r.1.head, r.1.tail)) = some ([(1, 10)], some 1, some 0) := by decide +kernel
  obtain ⟨⟨s, events⟩, hrun, hfacts⟩ := Option.map_eq_some_iff.mp hreplay
  simp only [Prod.mk.injEq] at hfacts
  obtain ⟨hlinked, hhead, htail⟩ := hfacts
  obtain ⟨tr, rfl, hrun⟩ := (Run.of_replay (fun _ _ _ _ => step_of_move) hrun).record
  obtain ⟨h, k, hshape, -⟩ := lockFreeQueue_shape hrun
  rw [chain, hlinked] at hshape
  obtain rfl : 1 = h := hshape.chain.index_inj rfl (hshape.head.symm.trans hhead)
  obtain rfl : 0 = k := hshape.chain.index_inj rfl (hshape.tail.symm.trans htail)
  exact ⟨tr, s, hrun, hshape⟩

end SmallTrial.Queue

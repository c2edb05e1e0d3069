import SmallTrial.QueueHistory

/-! `Drop::drop` of `LockFreeQueue`, started when no call is in progress. The walk follows `next` from
`head`, and the nodes it meets after the first are those linked to the chain whose value no `dequeue`
has taken, in the order of the links. -/

namespace SmallTrial.Queue

open Transition

variable {ι V : Type*}

/-- The nodes the walk of `Drop::drop` has destroyed with a value in them, with the values. -/
def destroyed (tr : List (Event ι V)) : List (Addr × V) :=
  tr.filterMap fun
    | .dropNode cur (some value) => some (cur, value)
    | _ => none

/-! ### The walk -/

/-- `Drop::drop` has started, so no call is in progress and none will start. -/
def Walking (s : State ι V) : Prop := s.life ≠ .alive ∧ ∀ t, s.pc t = .idle

/-- What the walk does at the nodes of `l`. -/
def walkOver (s : State ι V) (l : List Addr) : List (Event ι V) :=
  l.map (fun a => .dropNode a (valueAt s.heap a)) ++ [.dropEnd]

section Walk

variable [DecidableEq ι] {s u u' : State ι V} {e e' : Event ι V}

/-- Only the walk goes on. -/
theorem Walking.step_cases (hw : Walking s) (hstep : Step s e u) :
    (∃ cur a node, s.life = .dropping cur ∧ s.deref cur = some (a, node) ∧
      e = .dropNode a node.value ∧ u = { s with life := .dropping node.next }) ∨
    (s.life = .dropping none ∧ e = .dropEnd ∧ u = { s with life := .dropped }) := by
  obtain ⟨hlife, hidle⟩ := hw
  cases hstep with
  | enqueue t value q halive => exact absurd halive hlife
  | dequeue t halive => exact absurd halive hlife
  | thread _ t a hthread =>
      rw [threadStep_idle (hidle t)] at hthread
      cases hthread
  | dropStart halive => exact absurd halive hlife
  | dropNode cur a node hcur hderef => exact .inl ⟨cur, a, node, hcur, hderef, rfl, rfl⟩
  | dropEnd hend => exact .inr ⟨hend, rfl, rfl⟩

theorem Walking.step (hw : Walking s) (hstep : Step s e u) : Walking u := by
  rcases hw.step_cases hstep with ⟨cur, a, node, -, -, -, rfl⟩ | ⟨-, -, rfl⟩
  · exact ⟨nofun, hw.2⟩
  · exact ⟨nofun, hw.2⟩

/-- The walk has no choice. -/
theorem Walking.step_unique (hw : Walking s) (hstep : Step s e u) (hstep' : Step s e' u') :
    e = e' ∧ u = u' := by
  rcases hw.step_cases hstep with ⟨cur, a, node, hcur, hderef, rfl, rfl⟩ | ⟨hend, rfl, rfl⟩
  · rcases hw.step_cases hstep' with ⟨cur', a', node', hcur', hderef', rfl, rfl⟩ | ⟨hend', rfl, rfl⟩
    · cases hcur.symm.trans hcur'
      cases hderef.symm.trans hderef'
      exact ⟨rfl, rfl⟩
    · cases hcur.symm.trans hend'
      cases hderef
  · rcases hw.step_cases hstep' with ⟨cur', a', node', hcur', hderef', rfl, rfl⟩ | ⟨-, rfl, rfl⟩
    · cases hend.symm.trans hcur'
      cases hderef'
    · exact ⟨rfl, rfl⟩

/-- The walk goes through the chain to its end. -/
theorem Shape.walk {l : List Addr} {h k : Nat} (H : Shape s l h k) :
    ∀ n j, j + n = l.length →
      Run Step { s with life := .dropping l[j]? } (walkOver s (l.drop j)) { s with life := .dropped } := by
  intro n
  induction n with
  | zero =>
      intro j hj
      rw [List.drop_eq_nil_of_le (by omega), List.getElem?_eq_none (by omega)]
      exact .single (.dropEnd _ rfl)
  | succ n ih =>
      intro j hj
      obtain ⟨a, value, ha, hnode, hderef⟩ := H.deref_eq (i := j) (by omega)
      obtain ⟨hlt, hget⟩ := List.getElem?_eq_some_iff.mp ha
      rw [List.drop_eq_getElem_cons hlt, hget, walkOver, List.map_cons, valueAt_of_heap hnode]
      have hstep := Step.dropNode { s with life := .dropping l[j]? } _ a _ rfl hderef
      exact .cons hstep (ih (j + 1) (by omega))

/-- Every run of `Drop::drop` is the beginning of one that reaches the end. -/
theorem Walking.only {tr mid : List (Event ι V)} (hw : Walking s)
    (hrun : Run Step s tr { u with life := .dropped }) (hmid : Run Step s mid u') :
    ∃ rest, tr = mid ++ rest ∧ Run Step u' rest { u with life := .dropped } := by
  have hkeep : ∀ (a : State ι V) (e : Event ι V) (b : State ι V), Walking a → Step a e b → Walking b :=
    fun _ _ _ ha hstep => ha.step hstep
  have hfinal : ∀ (e : Event ι V) (b : State ι V),
      ¬Restrict Step (fun a _ => Walking a) { u with life := .dropped } e b := by
    rintro e b ⟨hstep, hend⟩
    rcases hend.step_cases hstep with ⟨cur, a, node, hcur, -⟩ | ⟨hnull, -⟩
    · cases hcur
    · cases hnull
  obtain ⟨rest, htr, hrest⟩ := Run.extends_to_final
    (fun a e b e' b' h h' => h.2.step_unique h.1 h'.1) hfinal
    (hrun.restrict_of_invariant Walking hw hkeep) (hmid.restrict_of_invariant Walking hw hkeep)
  exact ⟨rest, htr, hrest.of_restrict⟩

end Walk

/-! ### What is left in the queue -/

theorem destroyed_cons (s : State ι V) (a : Addr) (l : List Addr) :
    destroyed (walkOver s (a :: l)) =
      ((valueAt s.heap a).map (Prod.mk a)).toList ++ destroyed (walkOver s l) := by
  rw [walkOver, List.map_cons, List.cons_append, destroyed, List.filterMap_cons]
  cases valueAt s.heap a <;> rfl

theorem destroyed_of_values {s : State ι V} {xs : List (Addr × V)}
    (h : ∀ x ∈ xs, valueAt s.heap x.1 = some x.2) : destroyed (walkOver s (xs.map Prod.fst)) = xs := by
  induction xs with
  | nil => rfl
  | cons x xs ih =>
      rw [List.map_cons, destroyed_cons, h x List.mem_cons_self,
        ih fun y hy => h y (List.mem_cons_of_mem _ hy)]
      rfl

variable [DecidableEq ι]

section Left

variable {p : Addr} {tr : List (Event ι V)} {s : State ι V} {o : Fifo ι V} {h k : Nat}

/-- The nodes up to `head` have been taken from, those after it have not. -/
theorem linked_split (hrun : Run Step (State.new p) tr s) (hidle : ∀ t, s.pc t = .idle)
    (HC : Coupled s o (chain p tr) h k) :
    (∀ x ∈ (linked tr).take h, ∃ t, takesOf x.1 tr = [(t, x.2)]) ∧
    ∀ x ∈ (linked tr).drop h, valueAt s.heap x.1 = some x.2 ∧ takesOf x.1 tr = [] := by
  have hsettled : ∀ x ∈ linked tr, Settled tr s x := fun x hx =>
    (Takes.of_run hrun).settled x ((History.of_run hrun).linked_mem x hx)
  constructor
  · intro x hx
    obtain ⟨i, hi⟩ := List.mem_iff_getElem?.mp hx
    have hih : i < h := by
      have := (List.getElem?_eq_some_iff.mp hi).1
      rw [List.length_take] at this
      omega
    rw [List.getElem?_take_of_lt hih] at hi
    have hchain : (chain p tr)[i + 1]? = some x.1 := by
      rw [chain, List.getElem?_cons_succ, List.getElem?_map, hi, Option.map_some]
    have hnone : valueAt s.heap x.1 = none := HC.value_none_of_idle hidle (by omega) hchain
    rcases hsettled x (List.mem_of_mem_take hx) with ⟨hvalue, -⟩ | ⟨-, htaken⟩
    · cases hnone.symm.trans hvalue
    · exact htaken
  · intro x hx
    have hmem : x.1 ∈ (chain p tr).drop (h + 1) := by
      rw [chain, List.drop_succ_cons, ← List.map_drop]
      exact List.mem_map_of_mem hx
    have hsome : valueAt s.heap x.1 ∈ o.value.map some := by
      rw [← HC.value_eq]
      exact List.mem_map_of_mem hmem
    rcases hsettled x (List.mem_of_mem_drop hx) with hheld | ⟨hnone, -⟩
    · exact hheld
    · rw [hnone] at hsome
      obtain ⟨_, -, hv⟩ := List.mem_map.mp hsome
      cases hv

theorem taken_or_not (hrun : Run Step (State.new p) tr s) (hidle : ∀ t, s.pc t = .idle)
    (HC : Coupled s o (chain p tr) h k) :
    ∀ x ∈ linked tr, takesOf x.1 tr = [] ∨ ∃ t, takesOf x.1 tr = [(t, x.2)] := by
  obtain ⟨htaken, hleft⟩ := linked_split hrun hidle HC
  intro x hx
  rw [← List.take_append_drop h (linked tr)] at hx
  rcases List.mem_append.mp hx with hx | hx
  · exact .inr (htaken x hx)
  · exact .inl (hleft x hx).2

theorem filter_linked (hrun : Run Step (State.new p) tr s) (hidle : ∀ t, s.pc t = .idle)
    (HC : Coupled s o (chain p tr) h k) :
    ((linked tr).filter fun x => (takesOf x.1 tr).isEmpty) = (linked tr).drop h := by
  obtain ⟨htaken, hleft⟩ := linked_split hrun hidle HC
  have hnone : (((linked tr).take h).filter fun x => (takesOf x.1 tr).isEmpty) = [] := by
    refine List.filter_eq_nil_iff.mpr fun x hx => ?_
    obtain ⟨t, ht⟩ := htaken x hx
    simp [ht]
  have hall : (((linked tr).drop h).filter fun x => (takesOf x.1 tr).isEmpty) = (linked tr).drop h := by
    refine List.filter_eq_self.mpr fun x hx => ?_
    rw [(hleft x hx).2, List.isEmpty_nil]
  have hsplit := congrArg (List.filter fun x => (takesOf x.1 tr).isEmpty)
    (List.take_append_drop h (linked tr))
  rw [List.filter_append, hnone, hall, List.nil_append] at hsplit
  exact hsplit.symm

/-- The walk from `head` destroys what has been linked and not taken. -/
theorem destroyed_walk (hrun : Run Step (State.new p) tr s) (hidle : ∀ t, s.pc t = .idle)
    (HC : Coupled s o (chain p tr) h k) :
    destroyed (walkOver s ((chain p tr).drop h)) = (linked tr).drop h ∧
      (destroyed (walkOver s ((chain p tr).drop h))).map Prod.snd = o.value := by
  obtain ⟨-, hleft⟩ := linked_split hrun hidle HC
  have hrest : (chain p tr).drop (h + 1) = ((linked tr).drop h).map Prod.fst := by
    rw [chain, List.drop_succ_cons, List.map_drop]
  have hdestroyed : destroyed (walkOver s ((chain p tr).drop h)) = (linked tr).drop h := by
    have hlt := HC.head_lt
    have hhead : valueAt s.heap (chain p tr)[h] = none :=
      HC.value_none_of_idle hidle (Nat.le_refl h) (List.getElem?_eq_getElem hlt)
    rw [List.drop_eq_getElem_cons hlt, destroyed_cons, hhead, hrest,
      destroyed_of_values fun x hx => (hleft x hx).1]
    rfl
  refine ⟨hdestroyed, List.map_injective_iff.mpr (Option.some_injective V) ?_⟩
  rw [hdestroyed, ← HC.value_eq, hrest, List.map_map, List.map_map]
  exact List.map_congr_left fun x hx => (hleft x hx).1.symm

end Left

/-- What `Drop::drop` does to a queue that the run `tr` has left in the state `s`. It goes through the
events `walk` to the end, and nothing else can happen. Every call of `enqueue` has linked a node of its
own, each value has been taken once at most, and the values taken are those returned. The values
destroyed are those not taken, in the order of the links: what the FIFO queue of a linearization of the
run still holds. -/
structure Walked (tr : List (Event ι V)) (s : State ι V) (walk : List (Event ι V)) : Prop where
  run : Run Step s (.dropStart :: walk) { s with life := .dropped }
  only : ∀ mid s', Run Step s (.dropStart :: mid) s' →
    ∃ rest, walk = mid ++ rest ∧ Run Step s' rest { s with life := .dropped }
  linked_perm : (linked tr).Perm (puts tr)
  linked_nodup : ((linked tr).map Prod.fst).Nodup
  taken : ∀ x ∈ linked tr, takesOf x.1 tr = [] ∨ ∃ t, takesOf x.1 tr = [(t, x.2)]
  returned : ∀ t, takenBy t tr = returnedBy t tr
  destroyed_eq : destroyed walk = (linked tr).filter fun x => (takesOf x.1 tr).isEmpty
  fifo : ∃ trA o, Run (Object.Step LockBasedQueue.apply) (Object.new LockBasedQueue.new) trA o ∧
    trA.filterMap ObjectEvent.observe = tr.filterMap Event.observe ∧
    enqueued (commits trA) = dequeued (commits trA) ++ (destroyed walk).map Prod.snd

/-- **Dropping a queue.** From every state in which no call is in progress, `Drop::drop` comes to its
end and destroys the values that no `dequeue` has returned, each once, in the order of the queue. -/
theorem lockFreeQueue_drop (p : Addr) {tr : List (Event ι V)} {s : State ι V}
    (hrun : Run Step (State.new p) tr s) (hlife : s.life = .alive) (hidle : ∀ t, s.pc t = .idle) :
    ∃ walk, Walked tr s walk := by
  obtain ⟨o, trA, ⟨l, h, k, HC⟩, hrunA, hobs⟩ :=
    simulates_forward.run ⟨[p], 0, 0, Coupled.init p⟩ hrun
  have H := History.of_run hrun
  obtain rfl := H.chain_eq HC
  obtain ⟨hdestroyed, hvalue⟩ := destroyed_walk hrun hidle HC
  have hlt := HC.head_lt
  have hwalk := HC.walk ((chain p tr).length - h) h (by omega)
  rw [← HC.head_eq] at hwalk
  have hwalking : Walking { s with life := .dropping s.head } := ⟨nofun, hidle⟩
  have hreturned : ∀ t, takenBy t tr = returnedBy t tr := by
    intro t
    rw [taken_eq_returned hrun t, hidle t]
    exact List.append_nil _
  have hfifo := LockBasedQueue.executes_fifo (Object.Step.executes_commits hrunA)
  rw [← hvalue] at hfifo
  refine ⟨walkOver s ((chain p tr).drop h), {
    run := .cons (.dropStart s hlife hidle) hwalk
    only := fun mid s' hmid => ?_
    linked_perm := H.linked_perm hrun HC.nodup hidle
    linked_nodup := (List.nodup_cons.mp HC.nodup).2
    taken := taken_or_not hrun hidle HC
    returned := hreturned
    destroyed_eq := hdestroyed.trans (filter_linked hrun hidle HC).symm
    fifo := ⟨trA, o, hrunA, hobs, hfifo⟩ }⟩
  obtain ⟨u, hu, hmid'⟩ := hmid.cons_inv
  cases hu with
  | dropStart => exact hwalking.only hwalk hmid'

theorem of_move_dequeue {s : State ι V} {t : ι} (h : (s.move (t, .dequeue)).isSome) :
    s.life = .alive ∧ s.pc t = .idle := by
  simp only [State.move] at h
  split at h
  · exact ⟨‹_›, ‹_›⟩
  · cases h

/-- Thread `true` links its node and stops, thread `false` moves `tail` for it, puts in another value
and takes the first one. -/
def leftover : List (Bool × Move Nat) :=
  (true, .enqueue 10 1) :: List.replicate 3 (true, .step) ++
  (false, .enqueue 20 2) :: List.replicate 9 (false, .step) ++
  List.replicate 2 (true, .step) ++
  (false, .dequeue) :: List.replicate 9 (false, .step)

/-- The walk destroys the 20 that is left, and not the 10 that thread `false` has returned. -/
theorem lockFreeQueue_drop_leftover :
    ∃ (tr : List (Event Bool Nat)) (s : State Bool Nat) (walk : List (Event Bool Nat)),
      Run Step (State.new 0) tr s ∧ Walked tr s walk ∧ puts tr = [(1, 10), (2, 20)] ∧
      returnedBy false tr = [10] ∧ destroyed walk = [(2, 20)] := by
  have hreplay : (replay State.move (State.new 0) leftover).map (fun r => (puts r.2,
      (linked r.2).filter fun x => (takesOf x.1 r.2).isEmpty, returnedBy false r.2,
      (r.1.move (true, .dequeue)).isSome, (r.1.move (false, .dequeue)).isSome)) =
      some ([(1, 10), (2, 20)], [(2, 20)], [10], true, true) := by decide +kernel
  obtain ⟨⟨s, tr⟩, hrun, hfacts⟩ := Option.map_eq_some_iff.mp hreplay
  simp only [Prod.mk.injEq] at hfacts
  obtain ⟨hputs, hleft, hreturned, htrue, hfalse⟩ := hfacts
  have hrun := Run.of_replay (fun _ _ _ _ => step_of_move) hrun
  have hidle : ∀ t, s.pc t = .idle :=
    Bool.forall_bool.mpr ⟨(of_move_dequeue hfalse).2, (of_move_dequeue htrue).2⟩
  obtain ⟨walk, hwalk⟩ := lockFreeQueue_drop 0 hrun (of_move_dequeue htrue).1 hidle
  exact ⟨tr, s, walk, hrun, hwalk, hputs, hreturned, hwalk.destroyed_eq.trans hleft⟩

end SmallTrial.Queue

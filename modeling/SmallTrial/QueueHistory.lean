import SmallTrial.QueueOwnership

/-! The history of `LockFreeQueue`, read off the events of a run: the nodes allocated, the nodes linked
in the order of the links, and the values taken. The chain is what has been linked, and each value is in
its node or has been taken once. -/

namespace SmallTrial.Queue

open Transition

variable {ι V : Type*}

/-! ### What a run has put in, linked and taken -/

/-- The nodes the calls of `enqueue` have allocated, with the values put into them. -/
def puts (tr : List (Event ι V)) : List (Addr × V) :=
  tr.filterMap fun
    | .act _ (.callEnqueue value a) => some (a, value)
    | _ => none

theorem puts_snoc (tr : List (Event ι V)) (e : Event ι V) : puts (tr ++ [e]) = puts tr ++ puts [e] :=
  List.filterMap_append

/-- The threads that have taken a value from the node at `a`, with the values. -/
def takesOf (a : Addr) (tr : List (Event ι V)) : List (ι × V) :=
  tr.filterMap fun
    | .act t (.take n (some value)) => if n = a then some (t, value) else none
    | _ => none

theorem takesOf_snoc (a : Addr) (tr : List (Event ι V)) (e : Event ι V) :
    takesOf a (tr ++ [e]) = takesOf a tr ++ takesOf a [e] := List.filterMap_append

/-- The last node each thread has allocated, and the nodes linked to the chain so far. -/
structure Links (ι V : Type*) where
  last : ι → Option (Addr × V)
  linked : List (Addr × V)

section Links

variable [DecidableEq ι]

/-- A thread links the node it has allocated when its exchange of `(*p).next` succeeds. -/
def Links.next (x : Links ι V) : Event ι V → Links ι V
  | .act t (.callEnqueue value a) => { x with last := Function.update x.last t (some (a, value)) }
  | .act t (.casNext true) => { x with linked := x.linked ++ (x.last t).toList }
  | _ => x

def links (tr : List (Event ι V)) : Links ι V := tr.foldl Links.next ⟨fun _ => none, []⟩

/-- The nodes that `enqueue` has linked to the chain, in the order of the successful exchanges of
`(*p).next`, with the values put into them. -/
def linked (tr : List (Event ι V)) : List (Addr × V) := (links tr).linked

theorem links_snoc (tr : List (Event ι V)) (e : Event ι V) : links (tr ++ [e]) = (links tr).next e := by
  rw [links, List.foldl_append]
  rfl

/-- Only these two events say what the threads allocate and link. -/
theorem Links.next_of_ne (x : Links ι V) {t : ι} {a : Act V} (hcall : ∀ value q, a ≠ .callEnqueue value q)
    (hlink : a ≠ .casNext true) : x.next (.act t a) = x := by
  cases a with
  | callEnqueue value q => exact absurd rfl (hcall value q)
  | casNext ok =>
      cases ok with
      | true => exact absurd rfl hlink
      | false => rfl
  | _ => rfl

end Links

/-! ### The chain is what has been linked -/

/-- Only one linked node has no successor. -/
theorem Shape.last_unique {s : State ι V} {l : List Addr} {h k : Nat} (H : Shape s l h k) {a b : Addr}
    {node node' : Node V} (ha : a ∈ l) (hb : b ∈ l) (hnode : s.heap a = some node)
    (hnull : node.next = none) (hnode' : s.heap b = some node') (hnull' : node'.next = none) : a = b := by
  have hlast : ∀ c ∈ l, ∀ node : Node V, s.heap c = some node → node.next = none →
      l[l.length - 1]? = some c := by
    intro c hc node hnode hnull
    obtain ⟨i, hi⟩ := List.mem_iff_getElem?.mp hc
    obtain ⟨value, hvalue⟩ := H.node_eq i c hi
    obtain rfl := Option.some.inj (hnode.symm.trans hvalue)
    have hlt := (List.getElem?_eq_some_iff.mp hi).1
    have hge := List.getElem?_eq_none_iff.mp hnull
    rwa [show l.length - 1 = i by omega]
  exact Option.some.inj ((hlast a ha node hnode hnull).symm.trans (hlast b hb node' hnode' hnull'))

section History

variable [DecidableEq ι]

/-- The chain of a run that started with the dummy node at `p`. -/
def chain (p : Addr) (tr : List (Event ι V)) : List Addr := p :: (linked tr).map Prod.fst

/-- What the events of a run say about the nodes of the state it has reached. -/
structure History (p : Addr) (tr : List (Event ι V)) (s : State ι V) : Prop where
  node_eq : ∀ i a, (chain p tr)[i]? = some a → ∃ value, s.heap a = some ⟨value, (chain p tr)[i + 1]?⟩
  newNode_last : ∀ t q, (s.pc t).newNode = some q →
    q ∉ chain p tr ∧ ∃ value, (links tr).last t = some (q, value)
  last_mem : ∀ t x, (links tr).last t = some x → x ∈ puts tr
  linked_mem : ∀ x ∈ linked tr, x ∈ puts tr
  puts_mem : ∀ x ∈ puts tr,
    x ∈ linked tr ∨ ∃ t, (s.pc t).newNode = some x.1 ∧ (links tr).last t = some x
  heap_mem : ∀ a, s.heap a ≠ none → a = p ∨ ∃ value, (a, value) ∈ puts tr

/-- Only a successful exchange of `(*p).next` links a node; no other step changes a `next` or turns
away from a new node. -/
theorem threadStep_links {s s' : State ι V} {t : ι} {a : Act V} (h : s.threadStep t = some (s', a))
    (hfault : a ≠ .fault) :
    (∃ q ptr b node, a = .casNext true ∧ s.pc t = .enqCasNext q ptr ∧
      s.deref ptr = some (b, node) ∧ node.next = none ∧ (s'.pc t).newNode = none ∧
      s'.heap = Function.update s.heap b (some { node with next := some q })) ∨
    (a ≠ .casNext true ∧ (s'.pc t).newNode = (s.pc t).newNode ∧
      ∀ b node, s.heap b = some node → ∃ value, s'.heap b = some ⟨value, node.next⟩) := by
  have hkeep : ∀ b node, s.heap b = some node → ∃ value, s.heap b = some ⟨value, node.next⟩ :=
    fun b node hnode => ⟨node.value, hnode⟩
  rw [State.threadStep] at h
  cases hpc : s.pc t <;> rw [hpc] at h <;> dsimp only at h
  case enqCasNext q ptr =>
      cases hderef : s.deref ptr with
      | none =>
          simp only [hderef] at h
          cases h
          exact absurd rfl hfault
      | some r =>
          simp only [hderef] at h
          split at h <;> cases h
          · rename_i hnull
            exact .inl ⟨q, ptr, r.1, r.2, rfl, rfl, hderef, hnull, by simp [Pc.newNode], rfl⟩
          · exact .inr ⟨by simp, by simp [Pc.newNode], hkeep⟩
  case deqTake ptr n =>
      cases hderef : s.deref n with
      | none =>
          simp only [hderef] at h
          cases h
          exact absurd rfl hfault
      | some r =>
          simp only [hderef] at h
          cases h
          refine .inr ⟨by simp, by simp [Pc.newNode], fun b node hnode => ?_⟩
          rw [goto_heap, store_heap]
          by_cases hb : b = r.1
          · subst hb
            rw [(deref_eq_some hderef).2, Option.some.injEq] at hnode
            subst hnode
            exact ⟨none, Function.update_self ..⟩
          · rw [Function.update_of_ne hb]
            exact hkeep b node hnode
  all_goals
    (repeat' split at h) <;> cases h <;>
      first
        | exact absurd rfl hfault
        | exact .inr ⟨by simp, by simp [Pc.newNode], hkeep⟩

theorem linked_snoc (tr : List (Event ι V)) (e : Event ι V) :
    linked (tr ++ [e]) = ((links tr).next e).linked := by
  rw [linked, links_snoc]

omit [DecidableEq ι] in
/-- An exchange of `(*p).next` is one of a linked node, with a node that is not linked. -/
theorem Coupled.enqCasNext {s : State ι V} {o : Fifo ι V} {l : List Addr} {h k : Nat}
    (H : Coupled s o l h k) {t : ι} {q b : Addr} {ptr : Ptr} {node : Node V}
    (hpc : s.pc t = .enqCasNext q ptr) (hderef : s.deref ptr = some (b, node)) :
    b ∈ l ∧ s.heap b = some node ∧ q ∉ l := by
  obtain ⟨hptr, hnode⟩ := deref_eq_some hderef
  obtain ⟨⟨-, -, -, hfresh⟩, i, -, hi⟩ := hpc ▸ H.pcOk t
  exact ⟨List.mem_of_getElem? (hi.symm.trans hptr), hnode, hfresh⟩

theorem Coupled.ne_fault {s s' : State ι V} {o : Fifo ι V} {l : List Addr} {h k : Nat}
    (H : Coupled s o l h k) {t : ι} {a : Act V} (hstep : s.threadStep t = some (s', a)) : a ≠ .fault := by
  rintro rfl
  obtain ⟨_, _, _, _, -, hanswers⟩ := H.next_step (.thread s s' t _ hstep)
  exact hanswers

namespace History

variable {p : Addr} {tr : List (Event ι V)} {s s' : State ι V}

theorem init (p : Addr) : History p [] (State.new p : State ι V) where
  node_eq := by
    intro i a ha
    obtain ⟨hi, rfl⟩ := List.getElem?_eq_some_iff.mp ha
    obtain rfl : i = 0 := by simpa [chain, linked, links] using hi
    exact ⟨none, new_heap p⟩
  newNode_last := fun _ _ hq => nomatch hq
  last_mem := fun _ _ hx => nomatch hx
  linked_mem := fun _ hx => nomatch hx
  puts_mem := fun _ hx => nomatch hx
  heap_mem := by
    intro a ha
    by_contra hne
    simp only [not_or] at hne
    exact ha (by simp [State.new, hne.1])

theorem chain_heap (H : History p tr s) {a : Addr} (ha : a ∈ chain p tr) : s.heap a ≠ none := by
  obtain ⟨i, hi⟩ := List.mem_iff_getElem?.mp ha
  obtain ⟨value, hnode⟩ := H.node_eq i a hi
  rw [hnode]
  exact Option.some_ne_none _

/-- A step that links nothing and allocates nothing. -/
theorem frame {e : Event ι V} (H : History p tr s) (hlinks : (links tr).next e = links tr)
    (hputs : puts [e] = []) (hnew : ∀ t, (s'.pc t).newNode = (s.pc t).newNode)
    (hnext : ∀ b node, s.heap b = some node → ∃ value, s'.heap b = some ⟨value, node.next⟩)
    (hheap : ∀ b, s.heap b = none → s'.heap b = none) : History p (tr ++ [e]) s' := by
  have hlinked : linked (tr ++ [e]) = linked tr := by rw [linked_snoc, hlinks, linked]
  have hchain : chain p (tr ++ [e]) = chain p tr := by rw [chain, hlinked, chain]
  have hputs' : puts (tr ++ [e]) = puts tr := by rw [puts_snoc, hputs, List.append_nil]
  constructor
  case node_eq =>
      intro i a ha
      rw [hchain] at ha ⊢
      obtain ⟨value, hnode⟩ := H.node_eq i a ha
      exact hnext a _ hnode
  case newNode_last =>
      intro t q hq
      rw [hchain, links_snoc, hlinks]
      exact H.newNode_last t q (hnew t ▸ hq)
  case last_mem =>
      rw [links_snoc, hlinks, hputs']
      exact H.last_mem
  case linked_mem =>
      rw [hlinked, hputs']
      exact H.linked_mem
  case puts_mem =>
      rw [hlinked, hputs', links_snoc, hlinks]
      intro x hx
      exact (H.puts_mem x hx).imp_right fun ⟨t, hq, hlast⟩ => ⟨t, (hnew t).trans hq, hlast⟩
  case heap_mem =>
      rw [hputs']
      exact fun a ha => H.heap_mem a fun hnone => ha (hheap a hnone)

/-- A call of `enqueue` allocates a node outside the chain. -/
theorem enqueue (H : History p tr s) {t : ι} {value : V} {q : Addr} (hidle : s.pc t = .idle)
    (hq : s.heap q = none) : History p (tr ++ [.act t (.callEnqueue value q)])
      (s.callEnqueue t value q) := by
  have hlinked : linked (tr ++ [.act t (.callEnqueue value q)]) = linked tr := by
    rw [linked_snoc, Links.next, linked]
  have hchain : chain p (tr ++ [.act t (.callEnqueue value q)]) = chain p tr := by
    rw [chain, hlinked, chain]
  have hlast : (links (tr ++ [.act t (.callEnqueue value q)])).last =
      Function.update (links tr).last t (some (q, value)) := by rw [links_snoc, Links.next]
  have hputs : puts (tr ++ [.act t (.callEnqueue value q)]) = puts tr ++ [(q, value)] :=
    puts_snoc tr _
  have hheap : (s.callEnqueue t value q).heap = Function.update s.heap q (some (.new value)) := rfl
  have hpc : (s.callEnqueue t value q).pc = Function.update s.pc t (.enqFirstLoad q) := rfl
  have hne : ∀ a ∈ chain p tr, a ≠ q := by
    rintro a ha rfl
    exact H.chain_heap ha hq
  constructor
  case node_eq =>
      intro i a ha
      rw [hchain] at ha ⊢
      obtain ⟨value', hnode⟩ := H.node_eq i a ha
      rw [hheap, Function.update_of_ne (hne a (List.mem_of_getElem? ha))]
      exact ⟨value', hnode⟩
  case newNode_last =>
      intro t' q' hq'
      rw [hchain, hlast]
      rw [hpc] at hq'
      by_cases ht : t' = t
      · subst ht
        rw [Function.update_self] at hq'
        cases hq'
        rw [Function.update_self]
        exact ⟨fun hmem => hne q hmem rfl, value, rfl⟩
      · rw [Function.update_of_ne ht] at hq' ⊢
        exact H.newNode_last t' q' hq'
  case last_mem =>
      intro t' x hx
      rw [hlast] at hx
      rw [hputs]
      by_cases ht : t' = t
      · subst ht
        rw [Function.update_self, Option.some.injEq] at hx
        exact List.mem_append_right _ (List.mem_singleton.mpr hx.symm)
      · rw [Function.update_of_ne ht] at hx
        exact List.mem_append_left _ (H.last_mem t' x hx)
  case linked_mem =>
      intro x hx
      rw [hlinked] at hx
      rw [hputs]
      exact List.mem_append_left _ (H.linked_mem x hx)
  case puts_mem =>
      intro x hx
      rw [hputs] at hx
      rw [hlinked, hlast, hpc]
      rcases List.mem_append.mp hx with hx | hx
      · refine (H.puts_mem x hx).imp_right ?_
        rintro ⟨t', hnew, hlast'⟩
        have ht : t' ≠ t := by
          rintro rfl
          rw [hidle] at hnew
          cases hnew
        refine ⟨t', ?_, ?_⟩
        · rw [Function.update_of_ne ht, hnew]
        · rw [Function.update_of_ne ht, hlast']
      · rw [List.mem_singleton.mp hx]
        exact .inr ⟨t, by rw [Function.update_self]; rfl, by rw [Function.update_self]⟩
  case heap_mem =>
      intro a ha
      rw [hputs]
      by_cases haq : a = q
      · exact .inr ⟨value, List.mem_append_right _ (List.mem_singleton.mpr (by rw [haq]))⟩
      · rw [hheap, Function.update_of_ne haq] at ha
        exact (H.heap_mem a ha).imp_right fun ⟨value', hmem⟩ => ⟨value', List.mem_append_left _ hmem⟩

variable {o : Fifo ι V} {l : List Addr} {h k : Nat}

/-- The nodes linked by the events are linked in the heap. -/
theorem mem_chain (H : History p tr s) (HC : Coupled s o l h k) {a : Addr} (ha : a ∈ chain p tr) :
    a ∈ l := by
  rcases HC.newNode_mem a (H.chain_heap ha) with hmem | ⟨t, ht⟩
  · exact hmem
  · exact absurd ha (H.newNode_last t a ht).1

/-- The exchange of `(*p).next` that succeeds is the one behind the last node linked so far. -/
theorem link_node (H : History p tr s) (HC : Coupled s o l h k) {b q : Addr} {node : Node V}
    (hb : b ∈ l) (hnode : s.heap b = some node) (hnull : node.next = none) {i : Nat} {a : Addr}
    (ha : (chain p tr)[i]? = some a) :
    ∃ value, Function.update s.heap b (some { node with next := some q }) a =
      some ⟨value, (chain p tr ++ [q])[i + 1]?⟩ := by
  obtain ⟨value, hvalue⟩ := H.node_eq i a ha
  have hi := (List.getElem?_eq_some_iff.mp ha).1
  by_cases hab : a = b
  · subst hab
    obtain rfl := Option.some.inj (hnode.symm.trans hvalue)
    have hend : i + 1 = (chain p tr).length := by
      have := List.getElem?_eq_none_iff.mp hnull
      omega
    rw [Function.update_self, hend, List.getElem?_concat_length]
    exact ⟨value, rfl⟩
  · have hnext : i + 1 < (chain p tr).length := by
      by_contra hge
      rw [List.getElem?_eq_none (by omega)] at hvalue
      exact hab (HC.last_unique (H.mem_chain HC (List.mem_of_getElem? ha)) hb hvalue rfl hnode hnull)
    rw [Function.update_of_ne hab, List.getElem?_append_left hnext]
    exact ⟨value, hvalue⟩

/-- The thread whose exchange succeeds links the node it has allocated. -/
theorem link (H : History p tr s) (HC : Coupled s o l h k) {t : ι} {q b : Addr} {ptr : Ptr}
    {node : Node V} {x : Pc V} (hpc : s.pc t = .enqCasNext q ptr) (hderef : s.deref ptr = some (b, node))
    (hnull : node.next = none) (hpc' : s'.pc = Function.update s.pc t x) (hx : x.newNode = none)
    (hheap : s'.heap = Function.update s.heap b (some { node with next := some q })) :
    History p (tr ++ [.act t (.casNext true)]) s' := by
  have hq : (s.pc t).newNode = some q := by rw [hpc, Pc.newNode]
  obtain ⟨hfresh, value, hlast⟩ := H.newNode_last t q hq
  obtain ⟨hb, hnode, hql⟩ := HC.enqCasNext hpc hderef
  obtain ⟨v, -, hnew, -⟩ := (HC.pcOk t).fresh hq
  have hlinked : linked (tr ++ [.act t (.casNext true)]) = linked tr ++ [(q, value)] := by
    rw [linked_snoc, Links.next, hlast, Option.toList_some, linked]
  have hchain : chain p (tr ++ [.act t (.casNext true)]) = chain p tr ++ [q] := by
    rw [chain, hlinked, List.map_append, List.map_singleton, chain, List.cons_append]
  have hlinks : (links (tr ++ [.act t (.casNext true)])).last = (links tr).last := by
    rw [links_snoc, Links.next]
  have hputs : puts (tr ++ [.act t (.casNext true)]) = puts tr := by
    rw [puts_snoc]
    exact List.append_nil _
  have hother : ∀ t' q', (s'.pc t').newNode = some q' → t' ≠ t ∧ (s.pc t').newNode = some q' := by
    intro t' q' hq'
    rw [hpc'] at hq'
    by_cases ht : t' = t
    · rw [ht, Function.update_self, hx] at hq'
      cases hq'
    · rw [Function.update_of_ne ht] at hq'
      exact ⟨ht, hq'⟩
  constructor
  case node_eq =>
      intro i a ha
      rw [hchain] at ha ⊢
      rw [hheap]
      rcases Nat.lt_or_ge i (chain p tr).length with hi | hi
      · rw [List.getElem?_append_left hi] at ha
        exact H.link_node HC hb hnode hnull ha
      · obtain ⟨rfl, rfl⟩ : i = (chain p tr).length ∧ a = q := by
          have hlt := (List.getElem?_eq_some_iff.mp ha).1
          rw [List.length_append, List.length_singleton] at hlt
          obtain rfl : i = (chain p tr).length := by omega
          rw [List.getElem?_concat_length] at ha
          exact ⟨rfl, (Option.some.inj ha).symm⟩
        have hab : a ≠ b := by
          rintro rfl
          exact hql hb
        rw [Function.update_of_ne hab, hnew, List.getElem?_eq_none (by simp)]
        exact ⟨some v, rfl⟩
  case newNode_last =>
      intro t' q' hq'
      obtain ⟨ht, hq'⟩ := hother t' q' hq'
      rw [hchain, hlinks]
      refine (H.newNode_last t' q' hq').imp_left fun hmem hmem' => ?_
      rcases List.mem_append.mp hmem' with hmem' | hmem'
      · exact hmem hmem'
      · rw [List.mem_singleton.mp hmem'] at hq'
        exact ht (HC.newNode_inj t' t q hq' hq)
  case last_mem =>
      rw [hlinks, hputs]
      exact H.last_mem
  case linked_mem =>
      rw [hlinked, hputs]
      intro y hy
      rcases List.mem_append.mp hy with hy | hy
      · exact H.linked_mem y hy
      · rw [List.mem_singleton.mp hy]
        exact H.last_mem t _ hlast
  case puts_mem =>
      rw [hlinked, hputs, hlinks]
      intro y hy
      rcases H.puts_mem y hy with hmem | ⟨t', hy', hlast'⟩
      · exact .inl (List.mem_append_left _ hmem)
      · by_cases ht : t' = t
        · subst ht
          obtain rfl := Option.some.inj (hlast'.symm.trans hlast)
          exact .inl (List.mem_append_right _ (List.mem_singleton.mpr rfl))
        · exact .inr ⟨t', by rw [hpc', Function.update_of_ne ht]; exact hy', hlast'⟩
  case heap_mem =>
      rw [hputs]
      intro a ha
      refine H.heap_mem a fun hnone => ha ?_
      have hab : a ≠ b := by
        rintro rfl
        cases hnone.symm.trans hnode
      rw [hheap, Function.update_of_ne hab, hnone]

theorem thread (H : History p tr s) (HC : Coupled s o l h k) {t : ι} {a : Act V}
    (hstep : s.threadStep t = some (s', a)) : History p (tr ++ [.act t a]) s' := by
  have hcall : ∀ value q, a ≠ .callEnqueue value q := by
    rintro value q rfl
    exact threadStep_ne_call hstep
  obtain ⟨x, hpc'⟩ := threadStep_pc hstep
  rcases threadStep_links hstep (HC.ne_fault hstep) with
    ⟨q, ptr, b, node, rfl, hpc, hderef, hnull, hnone, hheap⟩ | ⟨hlink, hnew, hnext⟩
  · rw [hpc', Function.update_self] at hnone
    exact H.link HC hpc hderef hnull hpc' hnone hheap
  · refine H.frame (Links.next_of_ne _ hcall hlink) ?_ (fun t' => ?_) hnext
      fun b => (threadStep_heap hstep b).mpr
    · cases a with
      | callEnqueue value q => exact absurd rfl (hcall value q)
      | _ => rfl
    · by_cases ht : t' = t
      · rw [ht, hnew]
      · rw [hpc', Function.update_of_ne ht]

/-- Every step keeps the history. -/
theorem step {e : Event ι V} (H : History p tr s) (hR : Simulates s o) (hstep : Step s e s') :
    History p (tr ++ [e]) s' := by
  obtain ⟨l, h, k, HC⟩ := hR
  have hkeep : ∀ b node, s.heap b = some node → ∃ value, s.heap b = some ⟨value, node.next⟩ :=
    fun b node hnode => ⟨node.value, hnode⟩
  cases hstep with
  | enqueue t value q hlife hidle hq => exact H.enqueue hidle hq
  | dequeue t hlife hidle =>
      refine H.frame rfl rfl (fun t' => ?_) hkeep fun _ => id
      by_cases ht : t' = t
      · rw [ht, hidle, State.callDequeue, goto_pc, Function.update_self]
        rfl
      · rw [State.callDequeue, goto_pc, Function.update_of_ne ht]
  | thread _ t a hthread => exact H.thread HC hthread
  | dropStart | dropNode | dropEnd => exact H.frame rfl rfl (fun _ => rfl) hkeep fun _ => id

theorem of_run (h : Run Step (State.new p) tr s) : History p tr s := by
  refine h.invariant (History p) (init p) ?_
  intro tr a e b hrun hI hstep
  obtain ⟨o, -, hR, -⟩ := simulates_forward.run ⟨[p], 0, 0, Coupled.init p⟩ hrun
  exact hI.step hR hstep

/-- When no call is in progress, no node is waiting to be linked. -/
theorem mem_linked (H : History p tr s) (hidle : ∀ t, s.pc t = .idle) {x : Addr × V}
    (hx : x ∈ puts tr) : x ∈ linked tr := by
  rcases H.puts_mem x hx with hmem | ⟨t, ht, -⟩
  · exact hmem
  · rw [hidle t] at ht
    cases ht

/-- The chain is what has been linked. -/
theorem chain_eq (H : History p tr s) (HC : Coupled s o l h k) : chain p tr = l := by
  obtain ⟨j, hj⟩ := List.mem_iff_getElem?.mp (H.mem_chain HC (List.mem_cons_self : p ∈ chain p tr))
  -- both follow `next` from the dummy node on
  have hget : ∀ i, (chain p tr)[i]? = l[j + i]? := by
    intro i
    induction i with
    | zero => exact hj.symm
    | succ i ih =>
        cases hi : (chain p tr)[i]? with
        | none =>
            have hlen := List.getElem?_eq_none_iff.mp hi
            have hlen' := List.getElem?_eq_none_iff.mp (ih.symm.trans hi)
            rw [List.getElem?_eq_none (by omega), List.getElem?_eq_none (by omega)]
        | some a =>
            obtain ⟨value, hvalue⟩ := H.node_eq i a hi
            obtain ⟨value', hvalue'⟩ := HC.node_eq (j + i) a (ih.symm.trans hi)
            exact congrArg Node.next (Option.some.inj (hvalue.symm.trans hvalue'))
  -- and the chain starts with the dummy node, as every linked node is on the way from there
  obtain rfl : j = 0 := by
    have hfirst := HC.head_lt
    obtain ⟨a, value, ha, hnode, -⟩ := HC.deref_eq (i := 0) (by omega)
    have hmem : a ∈ chain p tr := by
      rcases H.heap_mem a (HC.mem_ne_none (List.mem_of_getElem? ha)) with rfl | ⟨value, hput⟩
      · exact List.mem_cons_self
      · rcases H.puts_mem _ hput with hlinked | ⟨t, hnew, -⟩
        · exact List.mem_cons_of_mem _ (List.mem_map_of_mem hlinked)
        · obtain ⟨-, -, -, hfresh⟩ := (HC.pcOk t).fresh hnew
          exact absurd (List.mem_of_getElem? ha) hfresh
    obtain ⟨i, hi⟩ := List.mem_iff_getElem?.mp hmem
    have := (List.getElem?_inj (by omega) HC.nodup).mp (ha.trans ((hget i).symm.trans hi).symm)
    omega
  refine List.ext_getElem? fun i => ?_
  rw [hget i, Nat.zero_add]

/-- When no call is in progress, every call of `enqueue` has linked its node. -/
theorem linked_perm (H : History p tr s) (hrun : Run Step (State.new p) tr s)
    (hnodup : (chain p tr).Nodup) (hidle : ∀ t, s.pc t = .idle) : (linked tr).Perm (puts tr) := by
  have hputs : (puts tr).map Prod.fst = newNodes tr := by
    rw [puts, newNodes, List.map_filterMap]
    refine List.filterMap_congr fun e _ => ?_
    cases e with
    | act t a => cases a <;> rfl
    | _ => rfl
  have hputs_nodup : (puts tr).Nodup := .of_map Prod.fst (hputs ▸ newNodes_nodup hrun)
  have hlinked_nodup : (linked tr).Nodup := .of_map Prod.fst (List.nodup_cons.mp hnodup).2
  exact (List.perm_ext_iff_of_nodup hlinked_nodup hputs_nodup).mpr fun x =>
    ⟨H.linked_mem x, H.mem_linked hidle⟩

end History

end History

/-! ### Each value is in its node or has been taken once -/

/-- The node `x.1` holds the value `x.2` it was made with, or one thread has taken it. -/
def Settled (tr : List (Event ι V)) (s : State ι V) (x : Addr × V) : Prop :=
  (valueAt s.heap x.1 = some x.2 ∧ takesOf x.1 tr = []) ∨
    (valueAt s.heap x.1 = none ∧ ∃ t, takesOf x.1 tr = [(t, x.2)])

/-- What the takes of a run say about the values in the nodes of the state it has reached. -/
structure Takes (tr : List (Event ι V)) (s : State ι V) : Prop where
  unused : ∀ a, s.heap a = none → takesOf a tr = []
  settled : ∀ x ∈ puts tr, Settled tr s x

namespace Takes

variable {tr : List (Event ι V)} {s s' : State ι V}

theorem init (p : Addr) : Takes [] (State.new p : State ι V) := ⟨fun _ _ => rfl, nofun⟩

theorem heap_ne_none (H : Takes tr s) {x : Addr × V} (hx : x ∈ puts tr) : s.heap x.1 ≠ none := by
  intro hnone
  rcases H.settled x hx with ⟨hvalue, -⟩ | ⟨-, t, ht⟩
  · rw [valueAt, hnone, Option.bind_none] at hvalue
    cases hvalue
  · cases (H.unused x.1 hnone).symm.trans ht

/-- A step that takes nothing and allocates nothing. -/
theorem frame {e : Event ι V} (H : Takes tr s) (hputs : puts [e] = []) (htakes : ∀ a, takesOf a [e] = [])
    (hvalue : ∀ a, valueAt s'.heap a = valueAt s.heap a)
    (hheap : ∀ a, s'.heap a = none → s.heap a = none) : Takes (tr ++ [e]) s' where
  unused := by
    intro a ha
    rw [takesOf_snoc, htakes, List.append_nil]
    exact H.unused a (hheap a ha)
  settled := by
    rw [puts_snoc, hputs, List.append_nil]
    intro x hx
    rw [Settled, takesOf_snoc, htakes, List.append_nil, hvalue]
    exact H.settled x hx

variable [DecidableEq ι]

theorem enqueue (H : Takes tr s) (t : ι) (value : V) {q : Addr} (hq : s.heap q = none) :
    Takes (tr ++ [.act t (.callEnqueue value q)]) (s.callEnqueue t value q) := by
  have hheap : (s.callEnqueue t value q).heap = Function.update s.heap q (some (.new value)) := rfl
  have htakes : ∀ a, takesOf a (tr ++ [.act t (.callEnqueue value q)]) = takesOf a tr := by
    intro a
    rw [takesOf_snoc]
    exact List.append_nil _
  have hputs : puts (tr ++ [.act t (.callEnqueue value q)]) = puts tr ++ [(q, value)] := puts_snoc tr _
  constructor
  case unused =>
      intro a ha
      have haq : a ≠ q := by
        rintro rfl
        rw [hheap, Function.update_self] at ha
        cases ha
      rw [hheap, Function.update_of_ne haq] at ha
      rw [htakes, H.unused a ha]
  case settled =>
      rw [hputs]
      intro x hx
      rw [Settled, htakes, hheap, valueAt_update]
      rcases List.mem_append.mp hx with hold | hnew
      · have hne : x.1 ≠ q := by
          rintro rfl
          exact H.heap_ne_none hold hq
        rw [if_neg hne]
        exact H.settled x hold
      · rw [List.mem_singleton.mp hnew, if_pos rfl]
        exact .inl ⟨rfl, H.unused q hq⟩

/-- `value.take()` empties the node it finds the value in. -/
theorem take (H : Takes tr s) {t : ι} {n : Addr} {value : Option V}
    (hstep : s.threadStep t = some (s', .take n value)) (hheap : s.heap n ≠ none)
    (htaken : valueAt s.heap n = value)
    (hvalue : ∀ b, valueAt s'.heap b = if b = n then none else valueAt s.heap b) :
    Takes (tr ++ [.act t (.take n value)]) s' := by
  have hother : ∀ b ≠ n, takesOf b (tr ++ [.act t (.take n value)]) = takesOf b tr := by
    intro b hb
    rw [takesOf_snoc]
    cases value with
    | none => exact List.append_nil _
    | some value => simp [takesOf, Ne.symm hb]
  constructor
  case unused =>
      intro b hb
      have hb' := (threadStep_heap hstep b).mp hb
      have hbn : b ≠ n := by
        rintro rfl
        exact hheap hb'
      rw [hother b hbn, H.unused b hb']
  case settled =>
      rw [puts_snoc, show puts [.act t (.take n value)] = [] from rfl, List.append_nil]
      intro x hx
      by_cases hxn : x.1 = n
      · refine .inr ⟨by rw [hvalue, if_pos hxn], ?_⟩
        rw [takesOf_snoc]
        rcases H.settled x hx with ⟨hv, hnone⟩ | ⟨hv, t', ht'⟩
        · rw [hxn, htaken] at hv
          exact ⟨t, by rw [hnone, hv]; simp [takesOf, hxn]⟩
        · rw [hxn, htaken] at hv
          exact ⟨t', by rw [ht', hv]; rfl⟩
      · rw [Settled, hvalue, if_neg hxn, hother x.1 hxn]
        exact H.settled x hx

/-- Every step keeps the account of the takes. -/
theorem step {e : Event ι V} (H : Takes tr s) (hstep : Step s e s') : Takes (tr ++ [e]) s' := by
  cases hstep with
  | enqueue t value q _ _ hq => exact H.enqueue t value hq
  | thread _ t a hthread =>
      rcases threadStep_value hthread with ⟨n, value, rfl, hheap, htaken, hvalue⟩ | ⟨hno, hvalue⟩
      · exact H.take hthread hheap htaken hvalue
      · refine H.frame ?_ (fun b => ?_) hvalue fun b => (threadStep_heap hthread b).mp
        · cases a with
          | callEnqueue value q => exact absurd hthread threadStep_ne_call
          | _ => rfl
        · cases a with
          | take n value => exact absurd rfl (hno n value)
          | _ => rfl
  | dequeue | dropStart | dropNode | dropEnd =>
      exact H.frame rfl (fun _ => rfl) (fun _ => rfl) fun _ => id

theorem of_run {p : Addr} (h : Run Step (State.new p) tr s) : Takes tr s :=
  h.invariant Takes (init p) fun _ _ _ _ _ hI hstep => hI.step hstep

end Takes

end SmallTrial.Queue

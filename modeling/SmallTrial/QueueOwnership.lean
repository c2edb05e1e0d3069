import SmallTrial.QueueLinearizable

/-! What becomes of the values put into `LockFreeQueue` when their destructor has an effect. A value
is taken by the dequeue that moves `head` to its node, but the node is destroyed by the dequeue that
moves `head` past it, which may come first. A run in which no `dequeue` destroys a node whose value
another one has still to take gives every value exactly one fate; when a run is like that is the subject of
`QueueTakeOrder`. -/

namespace SmallTrial.Queue

open Transition

variable {ι V : Type*}

/-- Thread `t` has moved `head` to the node at `a` and has still to take its value. -/
def AwaitsTake (s : State ι V) (t : ι) (a : Addr) : Prop :=
  ∃ p b node, (s.pc t).wonHead = some p ∧ s.deref p = some (b, node) ∧ node.next = some a

/-- A `dequeue` destroys a node only when no call has still to take the node's value. -/
def NoTakeAwaited (s : State ι V) : Event ι V → Prop
  | .act _ (.dropInPlace a _) => ∀ t, ¬AwaitsTake s t a
  | _ => True

/-- The ways in which a value leaves its node. -/
inductive Fate (ι V : Type*) where
  | taken (t : ι) (value : V)
  | destroyedInDequeue (t : ι) (value : V)
  | destroyedInDrop (value : V)
  deriving DecidableEq

/-- What an event does to the value in the node at `a`. -/
def Event.fate (a : Addr) : Event ι V → Option (Fate ι V)
  | .act t (.take n (some value)) => if n = a then some (.taken t value) else none
  | .act t (.dropInPlace p (some value)) => if p = a then some (.destroyedInDequeue t value) else none
  | .dropNode cur (some value) => if cur = a then some (.destroyedInDrop value) else none
  | _ => none

def fates (a : Addr) (tr : List (Event ι V)) : List (Fate ι V) := tr.filterMap (Event.fate a)

theorem fates_snoc (a : Addr) (tr : List (Event ι V)) (e : Event ι V) :
    fates a (tr ++ [e]) = fates a tr ++ (e.fate a).toList := by
  rw [fates, List.filterMap_append]
  cases he : e.fate a <;> simp [fates, he]

/-! ### Steps of a thread -/

theorem deref_eq_some {s : State ι V} {p : Ptr} {b : Addr} {node : Node V}
    (h : s.deref p = some (b, node)) : p = some b ∧ s.heap b = some node := by
  obtain ⟨b', rfl, hb⟩ := Option.bind_eq_some_iff.mp h
  obtain ⟨node', hnode, he⟩ := Option.map_eq_some_iff.mp hb
  cases he
  exact ⟨rfl, hnode⟩

theorem valueAt_of_heap {heap : Heap V} {b : Addr} {node : Node V} (h : heap b = some node) :
    valueAt heap b = node.value := by
  rw [valueAt, h, Option.bind_some]

section Thread

variable [DecidableEq ι] {s s' : State ι V} {t : ι} {a : Act V}

theorem threadStep_life (h : s.threadStep t = some (s', a)) : s'.life = s.life := by
  unfold State.threadStep at h
  split at h <;> (repeat' split at h) <;> cases h <;> rfl

/-- A step of a thread writes the heap at most once: it links a node or takes a value. -/
theorem threadStep_store (h : s.threadStep t = some (s', a)) :
    ((∀ n value, a ≠ .take n value) ∧
      (s'.heap = s.heap ∨ ∃ n node next, s.heap n = some node ∧
        s'.heap = Function.update s.heap n (some { node with next := next }))) ∨
    ∃ n node, a = .take n node.value ∧ s.heap n = some node ∧
      s'.heap = Function.update s.heap n (some { node with value := none }) := by
  rw [State.threadStep] at h
  cases hpc : s.pc t <;> rw [hpc] at h <;> dsimp only at h
  case enqCasNext q p =>
      cases hderef : s.deref p with
      | none =>
          simp only [hderef] at h
          cases h
          exact .inl ⟨by rintro _ _ ⟨⟩, .inl rfl⟩
      | some r =>
          simp only [hderef] at h
          split at h <;> cases h
          · exact .inl ⟨by rintro _ _ ⟨⟩, .inr ⟨r.1, r.2, some q, (deref_eq_some hderef).2, rfl⟩⟩
          · exact .inl ⟨by rintro _ _ ⟨⟩, .inl rfl⟩
  case deqTake p n =>
      cases hderef : s.deref n with
      | none =>
          simp only [hderef] at h
          cases h
          exact .inl ⟨by rintro _ _ ⟨⟩, .inl rfl⟩
      | some r =>
          simp only [hderef] at h
          cases h
          exact .inr ⟨r.1, r.2, rfl, (deref_eq_some hderef).2, rfl⟩
  all_goals (repeat' split at h) <;> cases h <;> exact .inl ⟨by rintro _ _ ⟨⟩, .inl rfl⟩

theorem threadStep_heap (h : s.threadStep t = some (s', a)) (b : Addr) :
    s'.heap b = none ↔ s.heap b = none := by
  have hupdate : ∀ {n : Addr} {node : Node V} (node' : Node V), s.heap n = some node →
      (Function.update s.heap n (some node') b = none ↔ s.heap b = none) := by
    intro n node node' hnode
    by_cases hb : b = n
    · simp [hb, hnode]
    · rw [Function.update_of_ne hb]
  rcases threadStep_store h with ⟨-, hheap | ⟨n, node, next, hnode, hheap⟩⟩ | ⟨n, node, -, hnode, hheap⟩
  · rw [hheap]
  · rw [hheap, hupdate _ hnode]
  · rw [hheap, hupdate _ hnode]

theorem threadStep_ne_call {value : V} {q : Addr} :
    s.threadStep t ≠ some (s', .callEnqueue value q) := by
  intro h
  rw [State.threadStep] at h
  cases hpc : s.pc t <;> rw [hpc] at h <;> dsimp only at h
  all_goals (repeat' split at h) <;> cases h

theorem threadStep_value (h : s.threadStep t = some (s', a)) :
    (∃ n value, a = .take n value ∧ s.heap n ≠ none ∧ valueAt s.heap n = value ∧
      ∀ b, valueAt s'.heap b = if b = n then none else valueAt s.heap b) ∨
    ((∀ n value, a ≠ .take n value) ∧ ∀ b, valueAt s'.heap b = valueAt s.heap b) := by
  rcases threadStep_store h with ⟨hno, hheap | ⟨n, node, next, hnode, hheap⟩⟩ |
    ⟨n, node, ha, hnode, hheap⟩
  · exact .inr ⟨hno, fun b => by rw [hheap]⟩
  · refine .inr ⟨hno, fun b => ?_⟩
    rw [hheap, valueAt_update]
    split
    · rename_i hb
      rw [hb, valueAt_of_heap hnode]
    · rfl
  · refine .inl ⟨n, node.value, ha, hnode ▸ Option.some_ne_none _, valueAt_of_heap hnode, fun b => ?_⟩
    rw [hheap, valueAt_update]

theorem threadStep_drop {b : Addr} {value : Option V}
    (h : s.threadStep t = some (s', .dropInPlace b value)) :
    (∃ res, s.pc t = .deqDrop (some b) res) ∧ valueAt s.heap b = value := by
  rw [State.threadStep] at h
  cases hpc : s.pc t <;> rw [hpc] at h <;> dsimp only at h
  case deqDrop p res =>
      cases hderef : s.deref p with
      | none =>
          simp only [hderef] at h
          cases h
      | some r =>
          simp only [hderef] at h
          cases h
          obtain ⟨rfl, hnode⟩ := deref_eq_some hderef
          exact ⟨⟨res, rfl⟩, valueAt_of_heap hnode⟩
  all_goals (repeat' split at h) <;> cases h

end Thread

/-! ### Who has still to take a value -/

namespace Coupled

variable {s : State ι V} {o : Fifo ι V} {l : List Addr} {h k : Nat}

/-- A call that has moved `head` has still to take the value of the next node. -/
theorem wonHead_index (H : Coupled s o l h k) {t : ι} {p : Ptr} (hwon : (s.pc t).wonHead = some p) :
    ∃ i a value, i < h ∧ p = l[i]? ∧ l[i + 1]? = some a ∧ valueAt s.heap a = some value := by
  have hok := H.pcOk t
  generalize s.pc t = x at hwon hok
  cases x <;> cases hwon
  case deqLoadTaken =>
      obtain ⟨i, a, value, hi, hp, ha, hv, -⟩ := hok
      exact ⟨i, a, value, hi, hp, ha, hv⟩
  case deqTake =>
      obtain ⟨i, a, value, hi, hp, ha, hv, -⟩ := hok
      exact ⟨i, a, value, hi, hp, ha, hv⟩

/-- A node at or before the head holds a value exactly as long as a call has still to take it. -/
theorem value_none_iff (H : Coupled s o l h k) {i : Nat} {a : Addr} (hi : i ≤ h)
    (ha : l[i]? = some a) : valueAt s.heap a = none ↔ ∀ t, ¬AwaitsTake s t a := by
  have hh := H.head_lt
  constructor
  · rintro hnone t ⟨p, b, node, hwon, hderef, hnext⟩
    obtain ⟨hp, hnode⟩ := deref_eq_some hderef
    obtain ⟨j, a', value, hj, rfl, ha', hvalue⟩ := H.wonHead_index hwon
    obtain ⟨v, hnode'⟩ := H.node_eq j b hp
    rw [hnode', Option.some.injEq] at hnode
    subst hnode
    rw [show l[j + 1]? = some a from hnext, Option.some.injEq] at ha'
    rw [← ha', hnone] at hvalue
    cases hvalue
  · intro hno
    by_contra hvalue
    cases i with
    | zero => exact hvalue (H.front_value a ha)
    | succ i =>
        obtain ⟨t, ht⟩ := H.spent_value i a hi ha hvalue
        obtain ⟨b, v, hb, hnode, hderef⟩ := H.deref_eq (i := i) (by omega)
        exact hno t ⟨_, b, _, ht, hderef, ha⟩

theorem dropInPlace_value [DecidableEq ι] {s' : State ι V} (H : Coupled s o l h k) {t : ι} {a : Addr}
    {value : Option V} (hstep : s.threadStep t = some (s', .dropInPlace a value)) :
    value = none ↔ ∀ t', ¬AwaitsTake s t' a := by
  obtain ⟨⟨res, hpc⟩, rfl⟩ := threadStep_drop hstep
  have hok := H.pcOk t
  rw [hpc] at hok
  obtain ⟨-, i, hi, ha⟩ := hok
  exact H.value_none_iff (Nat.le_of_lt hi) ha.symm

theorem value_none_of_idle (H : Coupled s o l h k) (hidle : ∀ t, s.pc t = .idle) {i : Nat} {a : Addr}
    (hi : i ≤ h) (ha : l[i]? = some a) : valueAt s.heap a = none := by
  refine (H.value_none_iff hi ha).mpr ?_
  rintro t ⟨_, _, _, hwon, -⟩
  rw [hidle t] at hwon
  cases hwon

/-- When no call is in progress, the values that are left are those after the head. -/
theorem index_of_value (H : Coupled s o l h k) (hidle : ∀ t, s.pc t = .idle) {a : Addr}
    (hvalue : valueAt s.heap a ≠ none) : ∃ i, h < i ∧ l[i]? = some a := by
  have hheap : s.heap a ≠ none := fun hnone => hvalue (by rw [valueAt, hnone, Option.bind_none])
  rcases H.newNode_mem a hheap with hmem | ⟨t, ht⟩
  · obtain ⟨i, hi⟩ := List.mem_iff_getElem?.mp hmem
    refine ⟨i, ?_, hi⟩
    by_contra hle
    exact hvalue (H.value_none_of_idle hidle (by omega) hi)
  · rw [hidle t] at ht
    cases ht

end Coupled

/-! ### The ledger -/

/-- How far the walk of `Drop::drop` has come: it has passed the nodes in `gone`. -/
def WalkOk (s : State ι V) (l : List Addr) (h : Nat) (gone : Addr → Prop) : Prop :=
  match s.life with
  | .alive => ∀ a, ¬gone a
  | .dropping cur => (∀ t, s.pc t = .idle) ∧
      ∃ j, h ≤ j ∧ cur = l[j]? ∧ ∀ a, gone a ↔ ∃ i, h ≤ i ∧ i < j ∧ l[i]? = some a
  | .dropped => (∀ t, s.pc t = .idle) ∧ ∀ a, gone a ↔ ∃ i, h ≤ i ∧ l[i]? = some a

/-- What has become of the value that was put into the node at `a`. -/
inductive Entry (tr : List (Event ι V)) (s : State ι V) (gone : Addr → Prop) (a : Addr) (value : V) :
    Prop where
  | held : valueAt s.heap a = some value → ¬gone a → fates a tr = [] → Entry tr s gone a value
  | destroyed : valueAt s.heap a = some value → gone a → fates a tr = [.destroyedInDrop value] →
      Entry tr s gone a value
  | taken (t : ι) : valueAt s.heap a = none → fates a tr = [.taken t value] → Entry tr s gone a value

/-- Every value put into the queue is accounted for. -/
def Ledger (tr : List (Event ι V)) (s : State ι V) : Prop :=
  ∃ o l h k gone, Coupled s o l h k ∧ WalkOk s l h gone ∧
    (∀ a, s.heap a = none → fates a tr = []) ∧
    ∀ t value a, Event.act t (.callEnqueue value a) ∈ tr → Entry tr s gone a value

/-- An entry carries over to a step that does nothing to its node. -/
theorem Entry.frame {tr : List (Event ι V)} {s s' : State ι V} {e : Event ι V}
    {gone gone' : Addr → Prop} {a : Addr} {value : V} (H : Entry tr s gone a value)
    (hvalue : valueAt s'.heap a = valueAt s.heap a) (hgone : gone' a ↔ gone a)
    (hfate : e.fate a = none) : Entry (tr ++ [e]) s' gone' a value := by
  have hfates : fates a (tr ++ [e]) = fates a tr := by
    rw [fates_snoc, hfate, Option.toList_none, List.append_nil]
  cases H with
  | held hv hg hf => exact .held (hvalue.trans hv) (hg ∘ hgone.mp) (hfates.trans hf)
  | destroyed hv hg hf => exact .destroyed (hvalue.trans hv) (hgone.mpr hg) (hfates.trans hf)
  | taken t hv hf => exact .taken t (hvalue.trans hv) (hfates.trans hf)

theorem Entry.heap_ne_none {tr : List (Event ι V)} {s : State ι V} {gone : Addr → Prop} {a : Addr}
    {value : V} (H : Entry tr s gone a value) (hunused : ∀ a, s.heap a = none → fates a tr = []) :
    s.heap a ≠ none := by
  intro hnone
  have hvalue : valueAt s.heap a = none := by rw [valueAt, hnone, Option.bind_none]
  cases H with
  | held hv => cases hvalue.symm.trans hv
  | destroyed hv => cases hvalue.symm.trans hv
  | taken t _ hf => cases (hunused a hnone).symm.trans hf

theorem fates_of_fate_none {tr : List (Event ι V)} {e : Event ι V} {a : Addr}
    (hfate : e.fate a = none) : fates a (tr ++ [e]) = fates a tr := by
  rw [fates_snoc, hfate, Option.toList_none, List.append_nil]

/-- Only taking the value, destroying it in `dequeue` or in `Drop::drop` decides its fate. -/
theorem act_fate_none {t : ι} {a : Act V} (htake : ∀ n value, a ≠ .take n (some value))
    (hdrop : ∀ p value, a ≠ .dropInPlace p (some value)) (b : Addr) : (Event.act t a).fate b = none := by
  cases a with
  | take n value =>
      cases value with
      | none => rfl
      | some value => exact absurd rfl (htake n value)
  | dropInPlace p value =>
      cases value with
      | none => rfl
      | some value => exact absurd rfl (hdrop p value)
  | _ => rfl

theorem Ledger.init (p : Addr) : Ledger [] (State.new p : State ι V) :=
  ⟨_, [p], 0, 0, fun _ => False, Coupled.init p, fun _ => id, fun _ _ => rfl, nofun⟩

/-- A step of a shared queue keeps the ledger if the value it changes gets the matching fate. -/
theorem Ledger.alive_step [DecidableEq ι] {tr : List (Event ι V)} {s s' : State ι V} {e : Event ι V}
    {o : Fifo ι V} {l : List Addr} {h k : Nat} {gone : Addr → Prop} (hR : Coupled s o l h k)
    (hstep : Step s e s') (hlife : s'.life = .alive) (hgone : ∀ a, ¬gone a)
    (hunused : ∀ a, s'.heap a = none → fates a (tr ++ [e]) = [])
    (hentry : ∀ t value a, Event.act t (.callEnqueue value a) ∈ tr ++ [e] →
      Entry (tr ++ [e]) s' gone a value) : Ledger (tr ++ [e]) s' := by
  obtain ⟨o', ⟨l', h', k', hR'⟩, -⟩ := Simulates.step ⟨l, h, k, hR⟩ hstep
  refine ⟨o', l', h', k', gone, hR', ?_, hunused, hentry⟩
  rw [WalkOk, hlife]
  exact hgone

theorem mem_snoc_of_ne {α : Type*} {l : List α} {a b : α} (h : a ∈ l ++ [b]) (hne : a ≠ b) : a ∈ l :=
  (List.mem_append.mp h).resolve_right fun hb => hne (List.mem_singleton.mp hb)

namespace Ledger

variable {tr : List (Event ι V)} {s s' : State ι V}

theorem step_dropStart (H : Ledger tr s) (hlife : s.life = .alive) (hidle : ∀ t, s.pc t = .idle) :
    Ledger (tr ++ [.dropStart]) { s with life := .dropping s.head } := by
  obtain ⟨o, l, h, k, gone, hR, hwalk, hunused, hentry⟩ := H
  rw [WalkOk, hlife] at hwalk
  refine ⟨o, l, h, k, gone, hR.setLife _, ⟨hidle, h, Nat.le_refl h, hR.head_eq, fun a => ?_⟩, ?_, ?_⟩
  · refine iff_of_false (hwalk a) ?_
    rintro ⟨i, hi, hlt, -⟩
    omega
  · intro a ha
    rw [fates_of_fate_none rfl, hunused a ha]
  · intro t value a hmem
    exact (hentry t value a (mem_snoc_of_ne hmem nofun)).frame rfl Iff.rfl rfl

/-- The walk destroys the node it stands at, and with it the value the node still holds. -/
theorem step_dropNode (H : Ledger tr s) {cur : Ptr} {a : Addr} {node : Node V}
    (hlife : s.life = .dropping cur) (hderef : s.deref cur = some (a, node)) :
    Ledger (tr ++ [.dropNode a node.value]) { s with life := .dropping node.next } := by
  obtain ⟨o, l, h, k, gone, hR, hwalk, hunused, hentry⟩ := H
  simp only [WalkOk, hlife] at hwalk
  obtain ⟨hidle, j, hj, rfl, hgone⟩ := hwalk
  obtain ⟨ha, hnode⟩ := deref_eq_some hderef
  obtain ⟨v, hnode'⟩ := hR.node_eq j a ha
  obtain rfl : node = ⟨v, l[j + 1]?⟩ := Option.some.inj (hnode.symm.trans hnode')
  have hlt : j < l.length := (List.getElem?_eq_some_iff.mp ha).1
  have hfresh : ¬gone a := by
    rw [hgone]
    rintro ⟨i, -, hi, hia⟩
    have := (List.getElem?_inj (by omega) hR.nodup).mp (hia.trans ha.symm)
    omega
  have hother : ∀ b ≠ a, (Event.dropNode a v : Event ι V).fate b = none := by
    intro b hb
    cases v with
    | none => rfl
    | some v => exact if_neg (Ne.symm hb)
  refine ⟨o, l, h, k, fun b => gone b ∨ b = a, hR.setLife _,
    ⟨hidle, j + 1, by omega, rfl, fun b => ?_⟩, ?_, ?_⟩
  · constructor
    · rintro (hb | rfl)
      · obtain ⟨i, hi, hij, hib⟩ := (hgone b).mp hb
        exact ⟨i, hi, by omega, hib⟩
      · exact ⟨j, hj, by omega, ha⟩
    · rintro ⟨i, hi, hij, hib⟩
      by_cases he : i = j
      · subst he
        exact .inr (Option.some.inj (hib.symm.trans ha))
      · exact .inl ((hgone b).mpr ⟨i, hi, by omega, hib⟩)
  · intro b hb
    have hba : b ≠ a := by
      rintro rfl
      cases hb.symm.trans hnode
    rw [fates_of_fate_none (hother b hba), hunused b hb]
  · intro t value b hmem
    have hold := hentry t value b (mem_snoc_of_ne hmem nofun)
    by_cases hba : b = a
    · subst hba
      have hv := valueAt_of_heap hnode
      cases hold with
      | held hv' hg hf =>
          obtain rfl : v = some value := hv.symm.trans hv'
          refine .destroyed hv (.inr rfl) ?_
          rw [fates_snoc, hf, Event.fate, if_pos rfl, Option.toList_some, List.nil_append]
      | destroyed hv' hg hf => exact absurd hg hfresh
      | taken t₁ hv' hf =>
          obtain rfl : v = none := hv.symm.trans hv'
          refine .taken t₁ hv ?_
          rw [fates_of_fate_none rfl, hf]
    · exact hold.frame rfl (or_iff_left hba) (hother b hba)

theorem step_dropEnd (H : Ledger tr s) (hlife : s.life = .dropping none) :
    Ledger (tr ++ [.dropEnd]) { s with life := .dropped } := by
  obtain ⟨o, l, h, k, gone, hR, hwalk, hunused, hentry⟩ := H
  simp only [WalkOk, hlife] at hwalk
  obtain ⟨hidle, j, hj, hend, hgone⟩ := hwalk
  refine ⟨o, l, h, k, gone, hR.setLife _, ⟨hidle, fun a => ?_⟩, ?_, ?_⟩
  · rw [hgone]
    constructor
    · rintro ⟨i, hi, -, hia⟩
      exact ⟨i, hi, hia⟩
    · rintro ⟨i, hi, hia⟩
      have hlen := List.getElem?_eq_none_iff.mp hend.symm
      have hlt := (List.getElem?_eq_some_iff.mp hia).1
      exact ⟨i, hi, by omega, hia⟩
  · intro a ha
    rw [fates_of_fate_none rfl, hunused a ha]
  · intro t value a hmem
    exact (hentry t value a (mem_snoc_of_ne hmem nofun)).frame rfl Iff.rfl rfl

/-- The ledger has an entry of a queue that is gone closed. -/
theorem fate (H : Ledger tr s) {t : ι} {value : V}
    {a : Addr} (hmem : Event.act t (.callEnqueue value a) ∈ tr) :
    (fates a tr = [] ∧ s.life ≠ .dropped) ∨ (∃ t', fates a tr = [.taken t' value]) ∨
      fates a tr = [.destroyedInDrop value] := by
  obtain ⟨o, l, h, k, gone, hR, hwalk, -, hentry⟩ := H
  cases hentry t value a hmem with
  | held hv hg hf =>
      refine .inl ⟨hf, fun hlife => ?_⟩
      simp only [WalkOk, hlife] at hwalk
      obtain ⟨i, hi, hia⟩ := hR.index_of_value hwalk.1 (hv ▸ Option.some_ne_none value)
      exact hg ((hwalk.2 a).mpr ⟨i, Nat.le_of_lt hi, hia⟩)
  | destroyed hv hg hf => exact .inr (.inr hf)
  | taken t' hv hf => exact .inr (.inl ⟨t', hf⟩)

variable [DecidableEq ι]

theorem step_enqueue (H : Ledger tr s) (t : ι) (value : V) (q : Addr) (hlife : s.life = .alive)
    (hpc : s.pc t = .idle) (hq : s.heap q = none) :
    Ledger (tr ++ [.act t (.callEnqueue value q)]) (s.callEnqueue t value q) := by
  obtain ⟨o, l, h, k, gone, hR, hwalk, hunused, hentry⟩ := H
  rw [WalkOk, hlife] at hwalk
  have hheap : (s.callEnqueue t value q).heap = Function.update s.heap q (some (.new value)) := rfl
  refine alive_step hR (.enqueue s t value q hlife hpc hq) hlife hwalk ?_ ?_
  · intro a ha
    have haq : a ≠ q := by
      rintro rfl
      rw [hheap, Function.update_self] at ha
      cases ha
    rw [hheap, Function.update_of_ne haq] at ha
    rw [fates_of_fate_none rfl, hunused a ha]
  · intro t' value' a hmem
    by_cases haq : a = q
    · subst haq
      have hnot : Event.act t' (.callEnqueue value' a) ∉ tr := fun hmem' =>
        (hentry t' value' a hmem').heap_ne_none hunused hq
      have heq := List.mem_singleton.mp ((List.mem_append.mp hmem).resolve_left hnot)
      cases heq
      refine .held ?_ (hwalk a) ?_
      · rw [hheap, valueAt_update, if_pos rfl, Node.new]
      · rw [fates_of_fate_none rfl, hunused a hq]
    · have hmem' : Event.act t' (.callEnqueue value' a) ∈ tr :=
        mem_snoc_of_ne hmem (by simp [haq])
      refine (hentry t' value' a hmem').frame ?_ Iff.rfl rfl
      rw [hheap, valueAt_update, if_neg haq]

theorem step_dequeue (H : Ledger tr s) (t : ι) (hlife : s.life = .alive) (hpc : s.pc t = .idle) :
    Ledger (tr ++ [.act t .callDequeue]) (s.callDequeue t) := by
  obtain ⟨o, l, h, k, gone, hR, hwalk, hunused, hentry⟩ := H
  rw [WalkOk, hlife] at hwalk
  refine alive_step hR (.dequeue s t hlife hpc) hlife hwalk ?_ ?_
  · intro a ha
    rw [fates_of_fate_none rfl, hunused a ha]
  · intro t' value' a hmem
    exact (hentry t' value' a (mem_snoc_of_ne hmem (by simp))).frame rfl Iff.rfl rfl

theorem thread_alive (H : Ledger tr s) {t : ι} {a : Act V} (hstep : s.threadStep t = some (s', a)) :
    s.life = .alive := by
  obtain ⟨o, l, h, k, gone, -, hwalk, -⟩ := H
  have hno : s.pc t ≠ .idle := by
    intro hidle
    rw [threadStep_idle hidle] at hstep
    cases hstep
  cases hlife : s.life with
  | alive => rfl
  | dropping | dropped =>
      simp only [WalkOk, hlife] at hwalk
      exact absurd (hwalk.1 t) hno

theorem step_other (H : Ledger tr s) {t : ι} {a : Act V} (hstep : s.threadStep t = some (s', a))
    (hfate : ∀ b, (Event.act t a).fate b = none) (hvalue : ∀ b, valueAt s'.heap b = valueAt s.heap b)
    (hcall : ∀ value q, a ≠ .callEnqueue value q) : Ledger (tr ++ [.act t a]) s' := by
  have hlife := H.thread_alive hstep
  obtain ⟨o, l, h, k, gone, hR, hwalk, hunused, hentry⟩ := H
  rw [WalkOk, hlife] at hwalk
  refine alive_step hR (.thread s s' t a hstep) ((threadStep_life hstep).trans hlife) hwalk ?_ ?_
  · intro b hb
    rw [fates_of_fate_none (hfate b), hunused b ((threadStep_heap hstep b).mp hb)]
  · intro t' value b hmem
    refine (hentry t' value b (mem_snoc_of_ne hmem ?_)).frame (hvalue b) Iff.rfl (hfate b)
    rintro he
    cases he
    exact hcall _ _ rfl

theorem step_take (H : Ledger tr s) {t : ι} {n : Addr} {value : Option V}
    (hstep : s.threadStep t = some (s', .take n value)) (hheap : s.heap n ≠ none)
    (htaken : valueAt s.heap n = value)
    (hvalue : ∀ b, valueAt s'.heap b = if b = n then none else valueAt s.heap b) :
    Ledger (tr ++ [.act t (.take n value)]) s' := by
  have hlife := H.thread_alive hstep
  obtain ⟨o, l, h, k, gone, hR, hwalk, hunused, hentry⟩ := H
  rw [WalkOk, hlife] at hwalk
  have hother : ∀ b ≠ n, (Event.act t (.take n value)).fate b = none := by
    intro b hb
    cases value with
    | none => rfl
    | some value => exact if_neg (Ne.symm hb)
  refine alive_step hR (.thread s s' t _ hstep) ((threadStep_life hstep).trans hlife) hwalk ?_ ?_
  · intro b hb
    have hb' := (threadStep_heap hstep b).mp hb
    have hbn : b ≠ n := by
      rintro rfl
      exact hheap hb'
    rw [fates_of_fate_none (hother b hbn), hunused b hb']
  · intro t' value' b hmem
    have hold := hentry t' value' b (mem_snoc_of_ne hmem (by simp))
    by_cases hbn : b = n
    · subst hbn
      have hnone : valueAt s'.heap b = none := by rw [hvalue, if_pos rfl]
      cases hold with
      | held hv hg hf =>
          rw [hv] at htaken
          subst htaken
          refine .taken t hnone ?_
          rw [fates_snoc, hf, Event.fate, if_pos rfl, Option.toList_some, List.nil_append]
      | destroyed hv hg hf => exact absurd hg (hwalk b)
      | taken t₁ hv hf =>
          rw [hv] at htaken
          subst htaken
          refine .taken t₁ hnone ?_
          rw [fates_of_fate_none rfl, hf]
    · refine hold.frame ?_ Iff.rfl (hother b hbn)
      rw [hvalue, if_neg hbn]

theorem step_thread (H : Ledger tr s) {t : ι} {a : Act V} (hstep : s.threadStep t = some (s', a))
    (hcond : NoTakeAwaited s (.act t a)) : Ledger (tr ++ [.act t a]) s' := by
  have hcall : ∀ value q, a ≠ .callEnqueue value q := by
    rintro value q rfl
    exact threadStep_ne_call hstep
  rcases threadStep_value hstep with ⟨n, value, rfl, hheap, htaken, hvalue⟩ | ⟨hno, hvalue⟩
  · exact H.step_take hstep hheap htaken hvalue
  · refine H.step_other hstep (act_fate_none (fun n value => hno n (some value)) ?_) hvalue hcall
    rintro p value rfl
    obtain ⟨o, l, h, k, -, hR, -⟩ := H
    cases (hR.dropInPlace_value hstep).mpr hcond

/-- Every step of a run in which no value is destroyed under a pending take keeps the ledger. -/
theorem step {e : Event ι V} (H : Ledger tr s) (hstep : Step s e s') (hcond : NoTakeAwaited s e) :
    Ledger (tr ++ [e]) s' := by
  cases hstep with
  | enqueue t value q hlife hpc hq => exact H.step_enqueue t value q hlife hpc hq
  | dequeue t hlife hpc => exact H.step_dequeue t hlife hpc
  | thread _ t a hthread => exact H.step_thread hthread hcond
  | dropStart hlife hidle => exact H.step_dropStart hlife hidle
  | dropNode cur a node hlife hderef => exact H.step_dropNode hlife hderef
  | dropEnd hlife => exact H.step_dropEnd hlife

end Ledger

/-! ### The values the threads take and return -/

/-- The value a `dequeue` has taken and not returned yet. -/
def Pc.inHand : Pc V → List V
  | .deqDrop _ (some value) | .ret (.value (some value)) => [value]
  | _ => []

/-- The nodes `enqueue` has allocated. -/
def newNodes (tr : List (Event ι V)) : List Addr :=
  tr.filterMap fun
    | .act _ (.callEnqueue _ a) => some a
    | _ => none

theorem newNodes_append (tr tr' : List (Event ι V)) :
    newNodes (tr ++ tr') = newNodes tr ++ newNodes tr' := List.filterMap_append

variable [DecidableEq ι]

def takenBy (t : ι) (tr : List (Event ι V)) : List V :=
  tr.filterMap fun
    | .act t' (.take _ (some value)) => if t' = t then some value else none
    | _ => none

def returnedBy (t : ι) (tr : List (Event ι V)) : List V :=
  tr.filterMap fun
    | .act t' (.ret (.value (some value))) => if t' = t then some value else none
    | _ => none

theorem inHand_goto (s : State ι V) {t : ι} {x x' : Pc V} {a : Act V}
    (htaken : takenBy t [.act t a] = []) (hreturned : returnedBy t [.act t a] = [])
    (hx : x.inHand = x'.inHand) :
    x.inHand ++ takenBy t [.act t a] = returnedBy t [.act t a] ++ ((s.goto t x').pc t).inHand := by
  rw [htaken, hreturned, goto_pc, Function.update_self, List.append_nil, List.nil_append, hx]

/-- What a step of a thread takes it holds until it returns it. -/
theorem threadStep_inHand {s s' : State ι V} {t : ι} {a : Act V}
    (h : s.threadStep t = some (s', a)) (hfault : a ≠ .fault) :
    (s.pc t).inHand ++ takenBy t [.act t a] = returnedBy t [.act t a] ++ (s'.pc t).inHand := by
  rw [State.threadStep] at h
  cases hpc : s.pc t <;> rw [hpc] at h <;> dsimp only at h
  case deqTake p n =>
      cases hderef : s.deref n with
      | none =>
          simp only [hderef] at h
          cases h
          exact absurd rfl hfault
      | some r =>
          simp only [hderef] at h
          cases h
          cases hvalue : r.2.value <;> simp [takenBy, returnedBy, Pc.inHand]
  case deqDrop p res =>
      cases hderef : s.deref p with
      | none =>
          simp only [hderef] at h
          cases h
          exact absurd rfl hfault
      | some r =>
          simp only [hderef] at h
          cases h
          cases res <;> simp [takenBy, returnedBy, Pc.inHand]
  case ret res =>
      cases h
      rcases res with _ | _ | value <;> simp [takenBy, returnedBy, Pc.inHand]
  all_goals (repeat' split at h) <;> cases h <;> exact inHand_goto _ rfl rfl rfl

theorem takenBy_append (t : ι) (tr tr' : List (Event ι V)) :
    takenBy t (tr ++ tr') = takenBy t tr ++ takenBy t tr' := List.filterMap_append

theorem returnedBy_append (t : ι) (tr tr' : List (Event ι V)) :
    returnedBy t (tr ++ tr') = returnedBy t tr ++ returnedBy t tr' := List.filterMap_append

theorem step_inHand {s s' : State ι V} {e : Event ι V} {o : Fifo ι V} (hR : Simulates s o)
    (hstep : Step s e s') (t : ι) :
    (s.pc t).inHand ++ takenBy t [e] = returnedBy t [e] ++ (s'.pc t).inHand := by
  have hother : ∀ (t' : ι) (a : Act V) (x : Pc V), t' ≠ t → s'.pc = Function.update s.pc t' x →
      (s.pc t).inHand ++ takenBy t [.act t' a] = returnedBy t [.act t' a] ++ (s'.pc t).inHand := by
    intro t' a x ht hpc
    have htaken : takenBy t [.act t' a] = [] := by
      cases a with
      | take n value => cases value <;> simp [takenBy, ht]
      | _ => rfl
    have hreturned : returnedBy t [.act t' a] = [] := by
      cases a with
      | ret res => rcases res with _ | _ | value <;> simp [returnedBy, ht]
      | _ => rfl
    rw [htaken, hreturned, hpc, Function.update_of_ne (Ne.symm ht), List.append_nil, List.nil_append]
  cases hstep with
  | enqueue t' value q _ hidle =>
      by_cases ht : t' = t
      · subst ht
        simp [State.callEnqueue, hidle, Pc.inHand, takenBy, returnedBy]
      · exact hother t' _ _ ht rfl
  | dequeue t' _ hidle =>
      by_cases ht : t' = t
      · subst ht
        simp [State.callDequeue, hidle, Pc.inHand, takenBy, returnedBy]
      · exact hother t' _ _ ht rfl
  | thread _ t' a hthread =>
      by_cases ht : t' = t
      · subst ht
        refine threadStep_inHand hthread ?_
        rintro rfl
        obtain ⟨_, -, hanswers⟩ := hR.step (.thread s s' t' _ hthread)
        exact hanswers
      · obtain ⟨x, hpc⟩ := threadStep_pc hthread
        exact hother t' a x ht hpc
  | dropStart | dropNode | dropEnd => exact List.append_nil _

/-- A value taken is in hand until it is returned, and it is returned to the thread that took it. -/
theorem taken_eq_returned {s : State ι V} {p : Addr} {tr : List (Event ι V)}
    (h : Run Step (State.new p) tr s) (t : ι) :
    takenBy t tr = returnedBy t tr ++ (s.pc t).inHand := by
  refine h.invariant (fun tr s => takenBy t tr = returnedBy t tr ++ (s.pc t).inHand) rfl ?_
  intro tr a e b hrun hI hstep
  obtain ⟨o, -, hR, -⟩ := simulates_forward.run ⟨[p], 0, 0, Coupled.init p⟩ hrun
  rw [takenBy_append, returnedBy_append, hI, List.append_assoc, step_inHand hR hstep t,
    List.append_assoc]

/-- Different calls put their values into different nodes. -/
theorem newNodes_nodup {s : State ι V} {p : Addr} {tr : List (Event ι V)}
    (h : Run Step (State.new p) tr s) : (newNodes tr).Nodup := by
  have hmem : (newNodes tr).Nodup ∧ ∀ a ∈ newNodes tr, s.heap a ≠ none := by
    refine h.invariant (fun tr s => (newNodes tr).Nodup ∧ ∀ a ∈ newNodes tr, s.heap a ≠ none)
      ⟨List.nodup_nil, nofun⟩ ?_
    rintro tr a e b - ⟨hnodup, hheap⟩ hstep
    rw [newNodes_append]
    cases hstep with
    | enqueue t value q _ _ hq =>
        refine ⟨List.nodup_append.mpr ⟨hnodup, List.nodup_singleton q, ?_⟩, fun a' ha' => ?_⟩
        · rintro a' ha' b' hb' rfl
          exact hheap a' ha' ((List.mem_singleton.mp hb').symm ▸ hq)
        · by_cases haq : a' = q
          · subst haq
            simp [State.callEnqueue]
          · have hold := (List.mem_append.mp ha').resolve_right fun hb =>
              haq (List.mem_singleton.mp hb)
            simpa [State.callEnqueue, haq] using hheap a' hold
    | dequeue | dropStart | dropNode | dropEnd =>
        exact ⟨(List.append_nil (newNodes tr)).symm ▸ hnodup,
          (List.append_nil (newNodes tr)).symm ▸ hheap⟩
    | thread _ t x hthread =>
        have hnil : newNodes [Event.act t x] = [] := by
          cases x with
          | callEnqueue value q => exact absurd hthread threadStep_ne_call
          | _ => rfl
        rw [hnil, List.append_nil]
        exact ⟨hnodup, fun a' ha' hb => hheap a' ha' ((threadStep_heap hthread a').mp hb)⟩
  exact hmem.1

/-! ### Every value has one owner -/

/-- Ownership of the values put into the queue along a run `tr` that has reached `s`: `dequeue`
destroys empty nodes only, each value has at most one fate, to be taken or to be destroyed with the
queue, and exactly one once the queue is gone; the values taken are the ones returned. -/
structure Owned (tr : List (Event ι V)) (s : State ι V) : Prop where
  drop_empty : ∀ t a value, Event.act t (.dropInPlace a value) ∈ tr → value = none
  fate : ∀ t value a, Event.act t (.callEnqueue value a) ∈ tr →
    (fates a tr = [] ∧ s.life ≠ .dropped) ∨ (∃ t', fates a tr = [.taken t' value]) ∨
      fates a tr = [.destroyedInDrop value]
  newNodes_nodup : (newNodes tr).Nodup
  returned : ∀ t, s.pc t = .idle → takenBy t tr = returnedBy t tr

theorem run_restrict_of_drop_empty {p : Addr} {tr : List (Event ι V)} {s : State ι V}
    (h : Run Step (State.new p) tr s)
    (hempty : ∀ t a value, Event.act t (.dropInPlace a value) ∈ tr → value = none) :
    Run (Restrict Step NoTakeAwaited) (State.new p) tr s := by
  induction h with
  | nil => exact .nil
  | @snoc tr e u v hrun hstep ih =>
      refine (ih fun t a value hmem => hempty t a value (List.mem_append_left _ hmem)).snoc
        ⟨hstep, ?_⟩
      have hlast : e ∈ tr ++ [e] := List.mem_append_right _ (List.mem_singleton.mpr rfl)
      cases hstep with
      | thread _ t a hthread =>
          cases a with
          | dropInPlace b value =>
              obtain ⟨o, -, ⟨l, h, k, hR⟩, -⟩ :=
                simulates_forward.run ⟨[p], 0, 0, Coupled.init p⟩ hrun
              exact (hR.dropInPlace_value hthread).mp (hempty t b value hlast)
          | _ => trivial
      | _ => trivial

/-- The values of a run have one owner each exactly when no step of it destroys a node whose value a
`dequeue` has still to take. -/
theorem owned_iff (p : Addr) (tr : List (Event ι V)) (s : State ι V) :
    Run Step (State.new p) tr s ∧ Owned tr s ↔
      Run (Restrict Step NoTakeAwaited) (State.new p) tr s := by
  constructor
  · rintro ⟨hrun, howned⟩
    exact run_restrict_of_drop_empty hrun howned.drop_empty
  · intro hrun
    have hledger : Ledger tr s := hrun.invariant Ledger (Ledger.init p)
      fun _ _ _ _ _ hI hstep => hI.step hstep.1 hstep.2
    have hfree := hrun.of_restrict
    refine ⟨hfree, ?_, fun t value a hmem => hledger.fate hmem, newNodes_nodup hfree, ?_⟩
    · intro t a value hmem
      refine hrun.forall_mem (P := fun e => ∀ t a value, e = .act t (.dropInPlace a value) →
        value = none) ?_ _ hmem t a value rfl
      rintro tr' u e v hrun' ⟨hstep, hcond⟩ t a value rfl
      obtain ⟨o, -, ⟨l, h, k, hR⟩, -⟩ :=
        simulates_forward.run ⟨[p], 0, 0, Coupled.init p⟩ hrun'.of_restrict
      cases hstep with
      | thread _ _ _ hthread => exact (hR.dropInPlace_value hthread).mpr hcond
    · intro t hidle
      simp [taken_eq_returned hfree t, hidle, Pc.inHand]

end SmallTrial.Queue

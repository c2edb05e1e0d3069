import Mathlib.Data.List.Basic
import SmallTrial.TransitionRun

/-! The accept loop of the `CSocket` server and its handler threads. The loop keeps the descriptor it
has accepted in the local variable `clnt_sock` and gives each new thread its address, so a handler serves
whatever the variable holds when it reads it first. Descriptors carry the number of the connection they
were accepted for, because the system uses the number of a closed descriptor again. -/

namespace SmallTrial.Chat.Accept

open Transition

structure Desc where
  fd : Nat
  conn : Nat
  deriving DecidableEq

inductive HandlerPc where
  | absent
  -- before `int conn_fd = *(int *)cfd`
  | pending
  | serving (d : Desc)
  -- after `close(conn_fd)`
  | closed (d : Desc)
  deriving DecidableEq

structure State where
  clntSock : Option Desc
  accepted : List Desc
  created : Nat
  handler : Nat → HandlerPc
  -- the connection an open descriptor stands for
  files : Nat → Option Nat

def State.new : State := ⟨none, [], 0, fun _ => .absent, fun _ => none⟩

inductive Event where
  | accept (fd : Nat)
  | create
  | read (i : Nat)
  | close (i : Nat)
  deriving DecidableEq

/-- A step of the loop or of handler `i`, as the event says. `accept` returns a descriptor that is not
open, and `pthread_create` follows each `accept`. -/
def State.next (s : State) : Event → Option State
  | .accept fd =>
      if s.created = s.accepted.length ∧ s.files fd = none then
        let d : Desc := ⟨fd, s.accepted.length⟩
        some { s with
          clntSock := some d
          accepted := s.accepted ++ [d]
          files := Function.update s.files fd (some d.conn) }
      else none
  | .create =>
      if s.created < s.accepted.length then
        some { s with created := s.created + 1, handler := Function.update s.handler s.created .pending }
      else none
  | .read i =>
      match s.handler i, s.clntSock with
      | .pending, some d => some { s with handler := Function.update s.handler i (.serving d) }
      | _, _ => none
  | .close i =>
      match s.handler i with
      | .serving d => some { s with
          handler := Function.update s.handler i (.closed d)
          files := Function.update s.files d.fd none }
      | _ => none

def Step (s : State) (e : Event) (s' : State) : Prop := s.next e = some s'

/-- Handler `i` has read the descriptor `d`. -/
def Serves (s : State) (i : Nat) (d : Desc) : Prop := s.handler i = .serving d ∨ s.handler i = .closed d

/-- Each connection has the handler created for it, and no other. -/
structure OwnHandlers (s : State) : Prop where
  served : ∀ i (d : Desc), Serves s i d → s.accepted[i]? = some d
  only : ∀ k (d : Desc), s.accepted[k]? = some d → ∀ i, Serves s i d → i = k
  each : ∀ k (d : Desc), s.accepted[k]? = some d → k < s.created → s.handler k = .pending ∨ Serves s k d
  distinct : ∀ i j d d', s.handler i = .serving d → s.handler j = .serving d' → d.fd = d'.fd → i = j

/-- `accept` is called when all handlers have read their descriptor. -/
def AllStarted (s : State) : Event → Prop
  | .accept _ => ∀ i, s.handler i ≠ .pending
  | _ => True

/-- The cases of a step. -/
inductive Moves (s : State) : Event → State → Prop where
  | accept {fd : Nat} : s.created = s.accepted.length → s.files fd = none →
      Moves s (.accept fd) { s with
        clntSock := some ⟨fd, s.accepted.length⟩
        accepted := s.accepted ++ [⟨fd, s.accepted.length⟩]
        files := Function.update s.files fd (some s.accepted.length) }
  | create : s.created < s.accepted.length →
      Moves s .create { s with
        created := s.created + 1
        handler := Function.update s.handler s.created .pending }
  | read {i : Nat} {d : Desc} : s.handler i = .pending → s.clntSock = some d →
      Moves s (.read i) { s with handler := Function.update s.handler i (.serving d) }
  | close {i : Nat} {d : Desc} : s.handler i = .serving d →
      Moves s (.close i) { s with
        handler := Function.update s.handler i (.closed d)
        files := Function.update s.files d.fd none }

theorem Moves.of_step {s s' : State} {e : Event} (h : Step s e s') : Moves s e s' := by
  cases e with
  | accept fd =>
      simp only [Step, State.next] at h
      split at h <;> cases h
      rename_i hfd
      exact .accept hfd.1 hfd.2
  | create =>
      simp only [Step, State.next] at h
      split at h <;> cases h
      rename_i hlt
      exact .create hlt
  | read i =>
      simp only [Step, State.next] at h
      split at h <;> cases h
      rename_i hpc hcell
      exact .read hpc hcell
  | close i =>
      simp only [Step, State.next] at h
      split at h <;> cases h
      rename_i hpc
      exact .close hpc

theorem getElem?_concat {l : List Desc} {a b : Desc} {i : Nat} (h : (l ++ [a])[i]? = some b) :
    l[i]? = some b ∨ (i = l.length ∧ b = a) := by
  rw [List.getElem?_append] at h
  split at h
  · exact .inl h
  · rename_i hlen
    rw [List.getElem?_singleton] at h
    split at h
    · rename_i hi
      exact .inr ⟨by omega, (Option.some.inj h).symm⟩
    · cases h

theorem getElem?_concat_old {l : List Desc} {a b : Desc} {i : Nat} (h : l[i]? = some b) :
    (l ++ [a])[i]? = some b := by
  rw [List.getElem?_append_left (List.getElem?_eq_some_iff.mp h).1, h]

/-! ### All runs -/

structure Shape (s : State) : Prop where
  conn_eq : ∀ i (d : Desc), s.accepted[i]? = some d → d.conn = i
  cell_eq : s.clntSock = s.accepted.getLast?
  created_le : s.created ≤ s.accepted.length
  length_le : s.accepted.length ≤ s.created + 1
  absent_iff : ∀ i, s.handler i = .absent ↔ s.created ≤ i

theorem Shape.init : Shape .new where
  conn_eq := nofun
  cell_eq := rfl
  created_le := Nat.le_refl 0
  length_le := Nat.zero_le 1
  absent_iff i := iff_of_true rfl (Nat.zero_le i)

/-- A handler that exists stays in existence. -/
theorem Shape.absent_update {s : State} (H : Shape s) {i : Nat} {x : HandlerPc}
    (hi : s.handler i ≠ .absent) (hx : x ≠ .absent) :
    ∀ j, Function.update s.handler i x j = .absent ↔ s.created ≤ j := by
  refine (Function.forall_update_iff s.handler fun j pc => pc = .absent ↔ s.created ≤ j).mpr
    ⟨?_, fun j _ => H.absent_iff j⟩
  rw [← H.absent_iff]
  exact iff_of_false hx hi

theorem Shape.step {s s' : State} {e : Event} (H : Shape s) (h : Moves s e s') : Shape s' := by
  cases h with
  | accept hcreated hfree =>
      refine ⟨fun i d hd => ?_, List.getLast?_concat.symm, ?_, ?_, H.absent_iff⟩
      · rcases getElem?_concat hd with hold | ⟨rfl, rfl⟩
        · exact H.conn_eq i d hold
        · rfl
      · rw [List.length_append]
        exact Nat.le_add_right_of_le H.created_le
      · exact Nat.le_of_eq (by rw [List.length_append, List.length_singleton, hcreated])
  | create hlt =>
      refine ⟨H.conn_eq, H.cell_eq, hlt, Nat.le_succ_of_le H.length_le, ?_⟩
      refine (Function.forall_update_iff s.handler fun j pc => pc = .absent ↔ s.created + 1 ≤ j).mpr
        ⟨iff_of_false nofun (Nat.not_succ_le_self _), fun j hj => ?_⟩
      rw [H.absent_iff]
      exact ⟨fun hle => Nat.lt_of_le_of_ne hle (Ne.symm hj), Nat.le_of_succ_le⟩
  | read hpc hcell =>
      exact ⟨H.conn_eq, H.cell_eq, H.created_le, H.length_le,
        H.absent_update (by rw [hpc]; exact nofun) nofun⟩
  | close hpc =>
      exact ⟨H.conn_eq, H.cell_eq, H.created_le, H.length_le,
        H.absent_update (by rw [hpc]; exact nofun) nofun⟩

/-! ### Runs that accept when all handlers have started -/

/-- What the position of handler `i` says about the accepted connections. -/
def Fits (accepted : List Desc) (i : Nat) : HandlerPc → Prop
  | .absent => True
  | .pending => i + 1 = accepted.length
  | .serving d | .closed d => accepted[i]? = some d

/-- The variable `clnt_sock` still holds the descriptor meant for a pending handler, and the
descriptor of each open connection stands for that connection. -/
structure Handed (s : State) : Prop where
  shape : Shape s
  fits : ∀ i, Fits s.accepted i (s.handler i)
  files_eq : ∀ i (d : Desc), s.accepted[i]? = some d → s.handler i ≠ .closed d →
    s.files d.fd = some i

theorem Handed.init : Handed .new := ⟨.init, fun _ => trivial, nofun⟩

theorem Fits.append {accepted : List Desc} {i : Nat} {pc : HandlerPc} (h : Fits accepted i pc)
    (hpc : pc ≠ .pending) (d : Desc) : Fits (accepted ++ [d]) i pc := by
  cases pc with
  | absent => trivial
  | pending => exact absurd rfl hpc
  | serving d' => exact getElem?_concat_old h
  | closed d' => exact getElem?_concat_old h

theorem Handed.step {s s' : State} {e : Event} (H : Handed s) (h : Moves s e s')
    (hstarted : AllStarted s e) : Handed s' := by
  have hshape := H.shape.step h
  cases h with
  | @accept fd hcreated hfree =>
      refine ⟨hshape, fun i => (H.fits i).append (hstarted i) _, fun i d hd hclosed => ?_⟩
      show Function.update s.files fd _ d.fd = _
      rcases getElem?_concat hd with hold | ⟨rfl, rfl⟩
      · have hopen := H.files_eq i d hold hclosed
        rw [Function.update_of_ne, hopen]
        -- `accept` does not return a descriptor that is open
        intro heq
        rw [heq, hfree] at hopen
        cases hopen
      · rw [Function.update_self]
  | create hlt =>
      refine ⟨hshape, (Function.forall_update_iff _ (Fits s.accepted)).mpr ⟨?_, fun i _ => H.fits i⟩,
        fun i d hd => ?_⟩
      · exact Nat.le_antisymm hlt H.shape.length_le
      · refine (Function.forall_update_iff s.handler
          fun i pc => s.accepted[i]? = some d → pc ≠ .closed d → s.files d.fd = some i).mpr
          ⟨fun hd _ => ?_, fun i _ => H.files_eq i d⟩ i hd
        have hnew := (H.shape.absent_iff _).mpr (Nat.le_refl s.created)
        exact H.files_eq _ d hd (by rw [hnew]; exact nofun)
  | @read i d hpc hcell =>
      refine ⟨hshape, (Function.forall_update_iff _ (Fits s.accepted)).mpr ⟨?_, fun i _ => H.fits i⟩,
        fun j d' hd => ?_⟩
      · have hlast : i + 1 = s.accepted.length := by
          have hfits := H.fits i
          rwa [hpc] at hfits
        show s.accepted[i]? = some d
        rw [← hcell, H.shape.cell_eq, List.getLast?_eq_getElem?, ← hlast, Nat.add_sub_cancel]
      · refine (Function.forall_update_iff s.handler
          fun j pc => s.accepted[j]? = some d' → pc ≠ .closed d' → s.files d'.fd = some j).mpr
          ⟨fun hd _ => ?_, fun j _ => H.files_eq j d'⟩ j hd
        exact H.files_eq _ d' hd (by rw [hpc]; exact nofun)
  | @close i d hpc =>
      have hserved : s.accepted[i]? = some d := by
        have hfits := H.fits i
        rwa [hpc] at hfits
      have hfd := H.files_eq i d hserved (by rw [hpc]; exact nofun)
      refine ⟨hshape, (Function.forall_update_iff _ (Fits s.accepted)).mpr
        ⟨hserved, fun i _ => H.fits i⟩, fun j d' hd => ?_⟩
      refine (Function.forall_update_iff s.handler fun j pc => s.accepted[j]? = some d' →
        pc ≠ .closed d' → Function.update s.files d.fd none d'.fd = some j).mpr
        ⟨fun hd hclosed => ?_, fun j hj hd hclosed => ?_⟩ j hd
      · rw [hserved, Option.some.injEq] at hd
        exact absurd (congrArg _ hd) hclosed
      · have hopen := H.files_eq j d' hd hclosed
        rw [Function.update_of_ne, hopen]
        -- the descriptor that is closed stands for connection `i`
        intro heq
        rw [heq, hfd, Option.some.injEq] at hopen
        exact hj hopen.symm

theorem Handed.ownHandlers {s : State} (H : Handed s) : OwnHandlers s := by
  have hserved : ∀ i d, Serves s i d → s.accepted[i]? = some d := by
    intro i d h
    have hfits := H.fits i
    rcases h with h | h <;> rw [h] at hfits <;> exact hfits
  refine ⟨hserved, fun k d hk i hi => ?_, fun k d hk hlt => ?_, fun i j d d' hi hj heq => ?_⟩
  · calc i = d.conn := (H.shape.conn_eq i d (hserved i d hi)).symm
      _ = k := H.shape.conn_eq k d hk
  · have hfits := H.fits k
    cases hpc : s.handler k with
    | absent => exact absurd ((H.shape.absent_iff k).mp hpc) (Nat.not_le_of_lt hlt)
    | pending => exact .inl rfl
    | serving d' =>
        rw [hpc, Fits, hk, Option.some.injEq] at hfits
        exact .inr (.inl (hfits ▸ hpc))
    | closed d' =>
        rw [hpc, Fits, hk, Option.some.injEq] at hfits
        exact .inr (.inr (hfits ▸ hpc))
  · have hfd := H.files_eq i d (hserved i d (.inl hi)) (by rw [hi]; exact nofun)
    rw [heq, H.files_eq j d' (hserved j d' (.inl hj)) (by rw [hj]; exact nofun)] at hfd
    exact (Option.some.inj hfd).symm

/-! ### Runs that accept earlier -/

/-- Some handler has missed the descriptor it was created for, or is bound to. -/
inductive Misled (s : State) : Prop where
  | pending {i : Nat} : s.handler i = .pending → i + 1 < s.accepted.length → Misled s
  | served {i : Nat} {d : Desc} : Serves s i d → d.conn ≠ i → Misled s

/-- Every handler that exists was created earlier than the next one. -/
theorem Shape.lt_created {s : State} (H : Shape s) {i : Nat} (hpc : s.handler i ≠ .absent) :
    i < s.created := by
  rw [← Nat.not_le, ← H.absent_iff]
  exact hpc

theorem Serves.ne_absent {s : State} {i : Nat} {d : Desc} (h : Serves s i d) : s.handler i ≠ .absent := by
  rcases h with h | h <;> rw [h] <;> simp

theorem Serves.ne_pending {s : State} {i : Nat} {d : Desc} (h : Serves s i d) : s.handler i ≠ .pending := by
  rcases h with h | h <;> rw [h] <;> simp

/-- A step of another handler. -/
theorem Serves.update {s s' : State} {i j : Nat} {d : Desc} {pc : HandlerPc} (h : Serves s i d)
    (hpc : s'.handler = Function.update s.handler j pc) (hij : i ≠ j) : Serves s' i d := by
  rw [Serves, hpc, Function.update_of_ne hij]
  exact h

theorem Misled.of_accept {s s' : State} {fd i : Nat} (H : Shape s) (hpc : s.handler i = .pending)
    (h : Moves s (.accept fd) s') : Misled s' := by
  have hlt : i < s.created := H.lt_created (by rw [hpc]; simp)
  cases h with
  | accept hcreated hfree =>
      refine .pending hpc ?_
      rw [List.length_append, List.length_singleton, ← hcreated]
      exact Nat.succ_lt_succ hlt

theorem Misled.step {s s' : State} {e : Event} (hs : Misled s) (H : Shape s) (h : Moves s e s') :
    Misled s' := by
  cases hs with
  | @pending i hpc hlt =>
      cases h with
      | accept hcreated hfree =>
          refine .pending hpc (Nat.lt_of_lt_of_le hlt ?_)
          rw [List.length_append]
          exact Nat.le_add_right _ _
      | create hcreated =>
          have hne : i ≠ s.created := Nat.ne_of_lt (H.lt_created (by rw [hpc]; simp))
          exact .pending ((Function.update_of_ne hne _ _).trans hpc) hlt
      | @read j d hj hcell =>
          by_cases hij : i = j
          · -- the variable holds the descriptor accepted last
            rw [H.cell_eq, List.getLast?_eq_getElem?] at hcell
            have hconn := H.conn_eq _ d hcell
            subst hij
            refine .served (i := i) (.inl (Function.update_self ..)) ?_
            omega
          · exact .pending ((Function.update_of_ne hij _ _).trans hpc) hlt
      | @close j d hj =>
          have hij : i ≠ j := by
            rintro rfl
            rw [hpc] at hj
            cases hj
          exact .pending ((Function.update_of_ne hij _ _).trans hpc) hlt
  | @served i d hserves hne =>
      cases h with
      | accept hcreated hfree => exact .served hserves hne
      | create hcreated =>
          have hi : i ≠ s.created := Nat.ne_of_lt (H.lt_created hserves.ne_absent)
          exact .served (hserves.update rfl hi) hne
      | @read j d' hj hcell =>
          have hij : i ≠ j := by
            rintro rfl
            exact hserves.ne_pending hj
          exact .served (hserves.update rfl hij) hne
      | @close j d' hj =>
          by_cases hij : i = j
          · subst hij
            rcases hserves with h | h <;> rw [h] at hj <;> cases hj
            exact .served (i := i) (.inr (Function.update_self ..)) hne
          · exact .served (hserves.update rfl hij) hne

theorem Misled.not_ownHandlers {s : State} (hs : Misled s) (H : Shape s)
    (hstarted : ∀ i, s.handler i ≠ .pending) : ¬OwnHandlers s := by
  intro hown
  cases hs with
  | pending hpc _ => exact hstarted _ hpc
  | served hpc hne => exact hne (H.conn_eq _ _ (hown.served _ _ hpc))

theorem run_cases {tr : List Event} {s : State} (h : Run Step .new tr s) :
    Shape s ∧ (Run (Restrict Step AllStarted) .new tr s ∨ Misled s) := by
  induction h with
  | nil => exact ⟨.init, .inl .nil⟩
  | @snoc tr e s s' _ hstep ih =>
      obtain ⟨H, hrun⟩ := ih
      have hmoves := Moves.of_step hstep
      refine ⟨H.step hmoves, ?_⟩
      rcases hrun with hrun | hs
      · by_cases hstarted : AllStarted s e
        · exact .inl (hrun.snoc ⟨hstep, hstarted⟩)
        · cases e with
          | accept fd =>
              obtain ⟨i, hpc⟩ := not_forall_not.mp hstarted
              exact .inr (.of_accept H hpc hmoves)
          | _ => exact absurd trivial hstarted
      · exact .inr (hs.step H hmoves)

/-- **The handlers of the accepted connections.** Each handler serves the connection it was created for
if the loop never accepts while a handler has yet to read its descriptor; and in a run at whose end all
handlers have read it, only if. -/
theorem handlers_own_connection {tr : List Event} {s : State} (h : Run Step .new tr s) :
    (Run (Restrict Step AllStarted) .new tr s → OwnHandlers s) ∧
      ((∀ i, s.handler i ≠ .pending) → OwnHandlers s → Run (Restrict Step AllStarted) .new tr s) := by
  refine ⟨fun hrun => ?_, fun hstarted hown => ?_⟩
  · exact Handed.ownHandlers (hrun.stateInvariant Handed .init fun _ _ _ H hstep =>
      H.step (.of_step hstep.1) hstep.2)
  · obtain ⟨H, hrun⟩ := run_cases h
    exact hrun.resolve_right fun hs => hs.not_ownHandlers H hstarted hown

theorem handlers_own_connection_two : ∃ s, Run (Restrict Step AllStarted) .new
    [.accept 4, .create, .read 0, .accept 5, .create, .read 1] s ∧ OwnHandlers s := by
  have haccept : Run (Restrict Step AllStarted) .new [.accept 4] _ := .single ⟨rfl, nofun⟩
  have hcreate := haccept.snoc (e := Event.create) ⟨rfl, trivial⟩
  have hread := hcreate.snoc (e := Event.read 0) ⟨rfl, trivial⟩
  have hstarted : ∀ i, Function.update (Function.update State.new.handler 0 .pending) 0
      (.serving ⟨4, 0⟩) i ≠ .pending := by
    intro i
    rw [Function.update_idem]
    by_cases hi : i = 0
    · rw [hi, Function.update_self]
      exact nofun
    · rw [Function.update_of_ne hi]
      exact nofun
  have haccept' := hread.snoc (e := Event.accept 5) ⟨rfl, hstarted⟩
  have hcreate' := haccept'.snoc (e := Event.create) ⟨rfl, trivial⟩
  have hrun := hcreate'.snoc (e := Event.read 1) ⟨rfl, trivial⟩
  exact ⟨_, hrun, (handlers_own_connection hrun.of_restrict).1 hrun⟩

/-- The loop accepts a second connection before the first handler reads `clnt_sock`: both handlers serve
the second connection, and the first has none. -/
theorem handlers_not_own_connection : ∃ s, Run Step .new
    [.accept 4, .create, .accept 5, .create, .read 0, .read 1] s ∧ Serves s 0 ⟨5, 1⟩ ∧
      Serves s 1 ⟨5, 1⟩ ∧ ¬OwnHandlers s := by
  have haccept : Run Step .new [.accept 4] _ := .single rfl
  have hcreate := haccept.snoc (e := Event.create) rfl
  have haccept' := hcreate.snoc (e := Event.accept 5) rfl
  have hcreate' := haccept'.snoc (e := Event.create) rfl
  have hread := hcreate'.snoc (e := Event.read 0) rfl
  have hread' := hread.snoc (e := Event.read 1) rfl
  refine ⟨_, hread', .inl rfl, .inl rfl, fun hown => ?_⟩
  exact absurd (hown.distinct 0 1 _ _ rfl rfl rfl) (by decide)

end SmallTrial.Chat.Accept

import SmallTrial.ChatServerRouting

/-! Clients that close their connection or crash without a `DISCONNECT`. When `recv` returns 0, the
handler dispatches what `mes_rec` holds: the zeros of the last `memset`, which are no request, or what it
held before its first message. -/

namespace SmallTrial.Chat.Server

open Transition Text

/-- The handler of connection `c` has left its loop and closed the connection, and the entries left are
those of other connections. -/
structure CleanedUp (tr : List Event) (s : State) (c : Nat) : Prop where
  finished : ∃ h, s.handler c = some h ∧ h.pc = .finished
  closed : ∀ fd, s.files fd ≠ some c
  erased : ∀ x ∈ s.clients, ∃ c', c' ≠ c ∧ s.files x.sock = some c' ∧ .register c' x ∈ tr

/-- A step of the handler of connection `c`. -/
def Event.isOf (c : Nat) : Event → Prop
  | .recv c' _ | .dispatch c' _ _ _ | .abort c' _ => c' = c
  | _ => False

/-- The next step of the handler of connection `c` cleans up, and nothing but the end of the server keeps
it from taking this step. -/
structure CleansUp (tr : List Event) (s : State) (c : Nat) : Prop where
  next : ∀ e s', Step s e s' → e.isOf c → CleanedUp (tr ++ [e]) s' c
  enabled : s.aborted = false → ∃ e s', Step s e s' ∧ e.isOf c

/-- The handler of connection `c` has yet to see or to handle the end of its stream. -/
def Pending (s : State) (c : Nat) : Prop :=
  ∃ h, s.handler c = some h ∧ h.pc ≠ .finished ∧
    (s.peer c = .gone ∨ (s.peer c = .ended ∧ h.pc = .dispatching))

/-- Vanished clients are cleaned up. -/
structure Tidy (tr : List Event) (s : State) : Prop where
  leaves : ∀ c, s.peer c = .ended → CleanedUp tr s c ∨ CleansUp tr s c
  present : (∀ c, ¬Pending s c) → ∀ x ∈ s.clients, ∃ c, s.files x.sock = some c ∧ s.peer c = .present
  forwards : (∀ c, ¬Pending s c) → ∀ e s', Step s e s' → ∀ p ∈ e.sends, p.2.type = .repost →
    ∃ c, s.files p.1 = some c ∧ s.peer c = .present

/-- When `recv` returns 0, `mes_rec` holds a `DISCONNECT`. -/
def EndsAsDisconnect (s : State) : Event → Prop
  | .recv c (some []) => ∀ h, s.handler c = some h → h.mesRec.type = some .disconnect
  | _ => True

/-! ### Runs in which each end of a stream is taken for a `DISCONNECT` -/

/-- Where a handler stands when `recv` has returned 0. -/
def AtEnd (s : State) (c : Nat) : Prop :=
  match s.handler c with
  | none => s.peer c = .present
  | some h => s.peer c = .ended →
      h.pc = .finished ∨ (h.pc = .dispatching ∧ h.mesRec.type = some .disconnect)

theorem AtEnd.congr {s s' : State} {c : Nat} (H : AtEnd s c) (hhandler : s'.handler c = s.handler c)
    (hpeer : s'.peer c = s.peer c) : AtEnd s' c := by
  rwa [AtEnd, hhandler, hpeer]

theorem AtEnd.of_handler {s : State} {c : Nat} {h : Handler} (hs : s.handler c = some h)
    (hend : s.peer c = .ended →
      h.pc = .finished ∨ (h.pc = .dispatching ∧ h.mesRec.type = some .disconnect)) : AtEnd s c := by
  rw [AtEnd, hs]
  exact hend

theorem AtEnd.of_ended {s : State} {c : Nat} {h : Handler} (H : AtEnd s c) (hs : s.handler c = some h)
    (hpeer : s.peer c = .ended) :
    h.pc = .finished ∨ (h.pc = .dispatching ∧ h.mesRec.type = some .disconnect) := by
  rw [AtEnd, hs] at H
  exact H hpeer

theorem atEnd_step {s s' : State} {e : Event} (H : ∀ c, AtEnd s c) (h : Step s e s')
    (hends : EndsAsDisconnect s e) (c : Nat) : AtEnd s' c := by
  by_cases hc : c = e.conn
  · subst hc
    cases h with
    | @register c e mesRec _ hnone _ =>
        refine .of_handler (Function.update_self ..) fun hpeer => ?_
        have hpresent := H c
        rw [AtEnd, hnone] at hpresent
        cases hpeer.symm.trans hpresent
    | @leave c h _ hs _ =>
        refine .of_handler hs fun hpeer => ?_
        cases hpeer.symm.trans (Function.update_self ..)
    | recvError _ _ _ => exact H _
    | @recvEnd c h _ hs _ _ =>
        have htype : h.mesRec.type = some .disconnect := hends h hs
        exact .of_handler (Function.update_self ..) fun _ => .inr ⟨rfl, htype⟩
    | recvBytes _ _ _ hpeer _ _ =>
        exact .of_handler (Function.update_self ..) fun hend => absurd hend hpeer
    | @dispatch c h env effect _ hs hpc hdispatch =>
        refine .of_handler (Function.update_self ..) fun hpeer => ?_
        rcases (H c).of_ended hs hpeer with hfin | ⟨-, htype⟩
        · cases hpc.symm.trans hfin
        · rw [dispatch_of_disconnect env htype, Option.some.injEq] at hdispatch
          subst hdispatch
          exact .inl rfl
    | abort _ _ _ _ => exact H _
  · obtain ⟨hhandler, hpeer⟩ := h.frame hc
    exact (H c).congr hhandler hpeer

theorem Registered.cleanedUp {tr : List Event} {s : State} (H : Registered tr s) {c : Nat} {h : Handler}
    (hs : s.handler c = some h) (hpc : h.pc = .finished) : CleanedUp tr s c := by
  have hclosed : ∀ fd, s.files fd ≠ some c := by
    intro fd hfd
    rw [H.files_iff, State.openFd, hs, Option.bind_some, Handler.openFd, if_pos hpc] at hfd
    cases hfd
  refine ⟨⟨h, hs, hpc⟩, hclosed, fun x hx => ?_⟩
  obtain ⟨c', hfd, hreg⟩ := H.entry x hx
  exact ⟨c', fun heq => hclosed x.sock (heq ▸ hfd), hfd, hreg⟩

/-- A handler that is about to dispatch a `DISCONNECT` cleans up. -/
theorem Registered.cleansUp {tr : List Event} {s : State} (H : Registered tr s) {c : Nat} {h : Handler}
    (hs : s.handler c = some h) (hpc : h.pc = .dispatching) (htype : h.mesRec.type = some .disconnect) :
    CleansUp tr s c := by
  refine ⟨fun e s' hstep he => ?_, fun habort => ?_⟩
  · have H' := H.step hstep
    have hne : ∀ h', s.handler c = some h' → h'.pc ≠ .receiving := by
      rintro h' hs' hrecv
      cases hs.symm.trans hs'
      cases hpc.symm.trans hrecv
    cases hstep with
    | register _ _ _ => cases he
    | leave _ _ _ => cases he
    | recvError _ hs' hrecv => exact absurd hrecv (hne _ (he ▸ hs'))
    | recvEnd _ hs' hrecv _ => exact absurd hrecv (hne _ (he ▸ hs'))
    | recvBytes _ hs' hrecv _ _ _ => exact absurd hrecv (hne _ (he ▸ hs'))
    | dispatch _ hs' _ hdispatch =>
        cases he
        cases hs.symm.trans hs'
        rw [dispatch_of_disconnect _ htype, Option.some.injEq] at hdispatch
        subst hdispatch
        exact H'.cleanedUp (Function.update_self ..) rfl
    | abort _ hs' _ hnone =>
        cases he
        cases hs.symm.trans hs'
        rw [dispatch_of_disconnect _ htype] at hnone
        cases hnone
  · exact ⟨_, _, .dispatch habort hs hpc (dispatch_of_disconnect zeroEnv htype), rfl⟩

theorem tidy_of_atEnd {tr : List Event} {s : State} (H : Registered tr s) (hend : ∀ c, AtEnd s c) :
    Tidy tr s := by
  have hpresent : (∀ c, ¬Pending s c) → ∀ x ∈ s.clients,
      ∃ c, s.files x.sock = some c ∧ s.peer c = .present := by
    intro hpending x hx
    obtain ⟨c, hfd, -⟩ := H.entry x hx
    obtain ⟨h, hs, hopen⟩ := Option.bind_eq_some_iff.mp ((H.files_iff _ _).mp hfd)
    have hpc : h.pc ≠ .finished := by
      intro hpc
      rw [Handler.openFd, if_pos hpc] at hopen
      cases hopen
    refine ⟨c, hfd, ?_⟩
    cases hpeer : s.peer c with
    | present => rfl
    | gone => exact absurd ⟨h, hs, hpc, .inl hpeer⟩ (hpending c)
    | ended =>
        obtain ⟨hdispatch, -⟩ := ((hend c).of_ended hs hpeer).resolve_left hpc
        exact absurd ⟨h, hs, hpc, .inr ⟨hpeer, hdispatch⟩⟩ (hpending c)
  refine ⟨fun c hpeer => ?_, hpresent, fun hpending e s' hstep p hp htype => ?_⟩
  · cases hs : s.handler c with
    | none =>
        have habsent := hend c
        rw [AtEnd, hs] at habsent
        cases hpeer.symm.trans habsent
    | some h =>
        rcases (hend c).of_ended hs hpeer with hfin | ⟨hpc, htype⟩
        · exact .inl (H.cleanedUp hs hfin)
        · exact .inr (H.cleansUp hs hpc htype)
  · cases hstep with
    | dispatch _ _ _ hdispatch =>
        obtain ⟨-, x, hx, hsock⟩ := (Served.of_dispatch hdispatch).repost hp htype
        exact hsock ▸ hpresent hpending x hx
    | _ => cases hp

/-! ### An end of a stream that is not taken for a `DISCONNECT` -/

/-- A handler that will not leave its loop. -/
def Stuck (s : State) (c : Nat) : Prop :=
  ∃ h, s.handler c = some h ∧ s.peer c = .ended ∧ h.pc ≠ .finished ∧ h.mesRec.type ≠ some .disconnect

theorem zero_type : MesRec.type (.zero messageSize) = none := by decide

theorem stuck_step {s s' : State} {e : Event} {c : Nat} (H : Stuck s c) (h : Step s e s') :
    Stuck s' c := by
  obtain ⟨hd, hs, hpeer, hpc, htype⟩ := H
  by_cases hc : c = e.conn
  · subst hc
    cases h with
    | register _ hnone _ => cases hs.symm.trans hnone
    | leave _ _ hpresent => cases hpeer.symm.trans hpresent
    | recvError _ _ _ => exact ⟨hd, hs, hpeer, hpc, htype⟩
    | recvEnd _ hs' _ _ =>
        cases hs.symm.trans hs'
        exact ⟨_, Function.update_self .., Function.update_self .., nofun, htype⟩
    | recvBytes _ _ _ hopen _ _ => exact absurd hpeer hopen
    | dispatch _ hs' _ hdispatch =>
        cases hs.symm.trans hs'
        have hcloses := ((Served.of_dispatch hdispatch).keeps htype).2
        refine ⟨_, Function.update_self .., hpeer, ?_, ?_⟩
        · rw [hcloses]
          exact nofun
        · rw [zero_type]
          exact nofun
    | abort _ _ _ _ => exact ⟨hd, hs, hpeer, hpc, htype⟩
  · obtain ⟨hhandler, hpeer'⟩ := h.frame hc
    exact ⟨hd, hhandler.trans hs, hpeer'.trans hpeer, hpc, htype⟩

theorem Stuck.not_cleanedUp {tr : List Event} {s : State} {c : Nat} (H : Stuck s c) :
    ¬CleanedUp tr s c := by
  obtain ⟨h, hs, -, hpc, -⟩ := H
  rintro ⟨⟨h', hs', hfin⟩, -, -⟩
  cases hs.symm.trans hs'
  exact hpc hfin

/-- After its first dispatch a handler calls `recv` with no message in `mes_rec`. -/
def Cleared (tr : List Event) (s : State) : Prop :=
  ∀ c, (∃ env type sends, .dispatch c env type sends ∈ tr) →
    ∃ h, s.handler c = some h ∧ (h.pc = .receiving → h.mesRec.type = none)

theorem cleared_step {tr : List Event} {s s' : State} {e : Event} (H : Cleared tr s) (h : Step s e s') :
    Cleared (tr ++ [e]) s' := by
  rintro c ⟨env, type, sends, hmem⟩
  by_cases hc : c = e.conn
  · subst hc
    rcases List.mem_append.mp hmem with hold | hnew
    · obtain ⟨hd, hs, hzero⟩ := H _ ⟨env, type, sends, hold⟩
      cases h with
      | register _ hnone _ => cases hs.symm.trans hnone
      | leave _ _ _ => exact ⟨hd, hs, hzero⟩
      | recvError _ _ _ => exact ⟨hd, hs, hzero⟩
      | recvEnd _ _ _ _ => exact ⟨_, Function.update_self .., nofun⟩
      | recvBytes _ _ _ _ _ _ => exact ⟨_, Function.update_self .., nofun⟩
      | dispatch _ _ _ _ => exact ⟨_, Function.update_self .., fun _ => zero_type⟩
      | abort _ _ _ _ => exact ⟨hd, hs, hzero⟩
    · cases h with
      | dispatch _ _ _ _ => exact ⟨_, Function.update_self .., fun _ => zero_type⟩
      | _ => cases List.mem_singleton.mp hnew
  · rcases List.mem_append.mp hmem with hold | hnew
    · obtain ⟨hd, hs, hzero⟩ := H c ⟨env, type, sends, hold⟩
      exact ⟨hd, (h.frame hc).1.trans hs, hzero⟩
    · rw [← List.mem_singleton.mp hnew] at hc
      exact absurd rfl hc

/-- What a `recv` that returns 0 finds and leaves. -/
theorem recv_zero {s s₁ : State} {c : Nat} (h : Step s (.recv c (some [])) s₁) :
    ∃ hd, s.aborted = false ∧ s.handler c = some hd ∧ hd.pc = .receiving ∧ s₁.aborted = false ∧
      s₁.handler c = some { hd with pc := .dispatching } ∧ s₁.peer c = .ended := by
  cases h with
  | @recvEnd _ hd habort hs hpc _ =>
      exact ⟨hd, habort, hs, hpc, habort, Function.update_self .., Function.update_self ..⟩
  | recvBytes _ _ _ _ hne _ => exact absurd rfl hne

/-- **Vanished clients.** They are cleaned up in every run in which each `recv` that returns 0 leaves
a `DISCONNECT` in `mes_rec`. A handler whose `recv` returns 0 may leave its loop later only if `mes_rec`
holds a `DISCONNECT` then, which is never so once it has dispatched a message. -/
theorem vanished_client {tr : List Event} {s : State} (h : Run Step .new tr s) :
    (Run (Restrict Step EndsAsDisconnect) .new tr s → Tidy tr s) ∧
      ∀ c s₁, Step s (.recv c (some [])) s₁ →
        (EndsAsDisconnect s (.recv c (some [])) ↔
          ∃ tr' s₂, Run Step s₁ tr' s₂ ∧ CleanedUp (tr ++ [.recv c (some [])] ++ tr') s₂ c) ∧
        ((∃ env type sends, .dispatch c env type sends ∈ tr) →
          ¬EndsAsDisconnect s (.recv c (some []))) := by
  have H := registered_of_run h
  refine ⟨fun hends => tidy_of_atEnd H ?_, fun c s₁ hrecv => ?_⟩
  · exact hends.stateInvariant (fun s => ∀ c, AtEnd s c) (fun c => by rw [AtEnd]; rfl)
      fun _ _ _ hend hstep => atEnd_step hend hstep.1 hstep.2
  obtain ⟨hd, -, hs, hpc, habort, hs₁, hpeer⟩ := recv_zero hrecv
  refine ⟨⟨fun hends => ?_, ?_⟩, fun hdispatched hends => ?_⟩
  · have hclean := (H.step hrecv).cleansUp hs₁ rfl (hends hd hs)
    obtain ⟨e, s₂, hstep, he⟩ := hclean.enabled habort
    exact ⟨[e], s₂, .single hstep, hclean.next e s₂ hstep he⟩
  · rintro ⟨tr', s₂, hrun, hclean⟩ hd' hs'
    cases hs.symm.trans hs'
    by_contra htype
    have hstuck : Stuck s₁ c := ⟨_, hs₁, hpeer, nofun, htype⟩
    exact (hrun.stateInvariant (fun s => Stuck s c) hstuck fun _ _ _ => stuck_step).not_cleanedUp hclean
  · obtain ⟨hd', hs', hzero⟩ := h.invariant Cleared nofun (fun _ _ _ _ _ => cleared_step) c hdispatched
    cases hs.symm.trans hs'
    cases (hzero hpc).symm.trans (hends _ hs)

theorem disconnect_message : ∃ mesRec : MesRec, mesRec.type = some .disconnect := by
  have hmes : ((Buffer.zero messageSize).write 0 [2]).map MesRec.type = some (some .disconnect) := by
    decide +kernel
  obtain ⟨mesRec, -, htype⟩ := Option.map_eq_some_iff.mp hmes
  exact ⟨mesRec, htype⟩

/-- The variable `mes_rec` of a handler happens to start with a 2, and its peer closes at once. -/
theorem vanished_client_atOnce : ∃ s, Run (Restrict Step EndsAsDisconnect) .new
    [.register 0 firstEntry, .leave 0, .recv 0 (some [])] s ∧ s.peer 0 = .ended ∧
      Tidy [.register 0 firstEntry, .leave 0, .recv 0 (some [])] s := by
  obtain ⟨mesRec, htype⟩ := disconnect_message
  let s₁ := State.new.register 0 firstEntry mesRec
  let s₂ : State := { s₁ with peer := Function.update s₁.peer 0 .gone }
  let s₃ : State := { s₂.setHandler 0 ⟨4, mesRec, .dispatching⟩ with
    peer := Function.update s₂.peer 0 .ended }
  have hs : s₁.handler 0 = some ⟨4, mesRec, .receiving⟩ := rfl
  have hregister : Step .new (.register 0 firstEntry) s₁ := .register rfl rfl rfl
  have hleave : Step s₁ (.leave 0) s₂ := .leave rfl hs rfl
  have hs₂ : s₂.handler 0 = some ⟨4, mesRec, .receiving⟩ := rfl
  have hrecv : Step s₂ (.recv 0 (some [])) s₃ := .recvEnd rfl hs₂ rfl nofun
  have hends : EndsAsDisconnect s₂ (.recv 0 (some [])) := by
    rintro h ⟨⟩
    exact htype
  have hrun : Run (Restrict Step EndsAsDisconnect) .new
      [.register 0 firstEntry, .leave 0, .recv 0 (some [])] s₃ :=
    .snoc (.snoc (.single ⟨hregister, trivial⟩) ⟨hleave, trivial⟩) ⟨hrecv, hends⟩
  exact ⟨s₃, hrun, rfl, (vanished_client hrun.of_restrict).1 hrun⟩

/-- The second of two clients closes its connection, and the first sends it a message: the server stays
in the loop of the vanished client, and says it has forwarded the message. -/
theorem vanished_client_not_cleaned : ∃ tr s, Run Step .new tr s ∧ s.peer 1 = .ended ∧
    (∀ tr' s', Run Step s tr' s' → ¬CleanedUp (tr ++ tr') s' 1) ∧ (∀ c, ¬Pending s c) ∧
      secondEntry ∈ s.clients ∧ s.files secondEntry.sock = some 1 ∧
      ∃ e s', Step s e s' ∧ ∃ p ∈ e.sends, p.1 = secondEntry.sock ∧ p.2.type = .repost := by
  obtain ⟨mesRec, hwrite, htype, hrequest⟩ := greeting_message
  let s₁ := State.new.register 0 firstEntry (.zero _)
  let s₂ := s₁.register 1 secondEntry (.zero _)
  let s₃ : State := { s₂ with peer := Function.update s₂.peer 1 .gone }
  let s₄ : State := { s₃.setHandler 1 ⟨5, .zero _, .dispatching⟩ with
    peer := Function.update s₃.peer 1 .ended }
  let s₅ := s₄.served 1 ⟨5, .zero _, .dispatching⟩ ⟨s₄.clients, [], false⟩
  let s₆ := s₅.setHandler 0 ⟨4, mesRec, .dispatching⟩
  have hregister₁ : Step .new (.register 0 firstEntry) s₁ := .register rfl rfl rfl
  have hregister₂ : Step s₁ (.register 1 secondEntry) s₂ := .register rfl rfl rfl
  have hs₂ : s₂.handler 1 = some ⟨5, .zero _, .receiving⟩ := rfl
  have hleave : Step s₂ (.leave 1) s₃ := .leave rfl hs₂ rfl
  have hs₃ : s₃.handler 1 = some ⟨5, .zero _, .receiving⟩ := rfl
  have hend : Step s₃ (.recv 1 (some [])) s₄ := .recvEnd rfl hs₃ rfl (by rintro ⟨⟩)
  have hs₄ : s₄.handler 1 = some ⟨5, .zero _, .dispatching⟩ := rfl
  have hignore : dispatch s₄.clients 5 (.zero _) zeroEnv = some ⟨s₄.clients, [], false⟩ := by
    rw [dispatch, zero_type]
  have hdispatch : Step s₄ (.dispatch 1 zeroEnv (MesRec.type (.zero _)) []) s₅ :=
    .dispatch rfl hs₄ rfl hignore
  have hs₅ : s₅.handler 0 = some ⟨4, .zero _, .receiving⟩ := rfl
  have hrecv : Step s₅ (.recv 0 (some greeting)) s₆ :=
    .recvBytes rfl hs₅ rfl (by rintro ⟨⟩) (List.cons_ne_nil _ _) hwrite
  have hrun₂ : Run Step .new [.register 0 firstEntry, .register 1 secondEntry] s₂ :=
    .snoc (.single hregister₁) hregister₂
  have hrun := (((hrun₂.snoc hleave).snoc hend).snoc hdispatch).snoc hrecv
  have hstuck : Stuck s₆ 1 :=
    ⟨⟨5, .zero _, .receiving⟩, rfl, rfl, by rintro ⟨⟩, by rw [zero_type]; rintro ⟨⟩⟩
  refine ⟨_, s₆, hrun, rfl, fun tr' s' hrun' => ?_, ?_, ?_, rfl, ?_⟩
  · exact (hrun'.stateInvariant (fun s => Stuck s 1) hstuck fun _ _ _ => stuck_step).not_cleanedUp
  · rintro c ⟨h, hs, -, hpeer⟩
    by_cases hc : c = 1
    · subst hc
      cases hs
      rcases hpeer with hgone | ⟨-, hpc⟩
      · cases hgone
      · cases hpc
    · have hpresent : s₆.peer c = .present :=
        (Function.update_of_ne hc _ _).trans (Function.update_of_ne hc _ _)
      rw [hpresent] at hpeer
      rcases hpeer with hgone | ⟨hended, -⟩
      · cases hgone
      · cases hended
  · exact List.mem_cons_of_mem _ List.mem_cons_self
  · obtain ⟨effect, hserve, hforward⟩ := greeting_forwarded htype hrequest
    have hs₆ : s₆.handler 0 = some ⟨4, mesRec, .dispatching⟩ := rfl
    exact ⟨_, _, .dispatch rfl hs₆ rfl hserve, hforward⟩

end SmallTrial.Chat.Server

import SmallTrial.ListingArguments
import SmallTrial.ListingOutput
import SmallTrial.ListingTermination

/-! `list_dir` and the rest of `main`: the files among the arguments are listed first, then one directory
after the other, with a `chdir` to the directory in which `myls` was started after each of them. -/

namespace SmallTrial.Listing

open Text Files Transition

/-- `list_dir`: at the head of its loop, or in the call of `list_content_dir` for one of the directories. -/
inductive ListDir where
  | loop (dirs : List Bytes) (cwd : Path) (out : List Token)
  | content (dirs : List Bytes) (s : State)

inductive DirEvent where
  | call (dirname : Bytes)
  | inner (e : Event)
  /-- `chdir(cwd)`, with the current directory after it -/
  | chdir (cwd : Path)

/-- What `list_content_dir` is called on, after `out` was printed. -/
def State.startAfter (cwd : Path) (root : Bytes) (out : List Token) : State := ⟨cwd, .call root [], [], out⟩

def ListDir.next (fs : FileTree) (opts : Options) (uninit : State → Bool) (cwdText : Bytes) :
    ListDir → Option (ListDir × DirEvent)
  | .loop [] _ _ => none
  | .loop (dirname :: dirs) cwd out => some (.content dirs (.startAfter cwd dirname out), .call dirname)
  | .content dirs s =>
      match s.next fs opts uninit with
      | some (s', e) => some (.content dirs s', .inner e)
      | none =>
          if s.mode = .back then
            let cwd := (fs.chdir s.cwd cwdText).getD s.cwd
            some (.loop dirs cwd s.out, .chdir cwd)
          else none

def ListDir.Step (fs : FileTree) (opts : Options) (uninit : State → Bool) (cwdText : Bytes) (w : ListDir)
    (e : DirEvent) (w' : ListDir) : Prop := w.next fs opts uninit cwdText = some (w', e)

/-- `main` after the arguments are read: `list_file` for the files, then `list_dir`. -/
def ListDir.start (lib : Library) (stat : Path → Bytes → Stat) (acc : Accepted) (cwd : Path) : ListDir :=
  .loop acc.paths.dir cwd (put (listFile lib acc.flags.settings (stat cwd) false acc.paths.file))

/-- The bytes of a token. -/
def Token.text (lib : Library) (o : Settings) (stat : Path → Bytes → Stat) : Token → Bytes
  | .byte c => [c]
  | .files cwd names => listFile lib o (stat cwd) true names

variable {fs : FileTree} {opts : Options} {uninit : State → Bool} {cwdText : Bytes} {cwd : Path}
  {s t : State} {w w' : ListDir}

/-! ### What was printed before -/

def State.after (out : List Token) (s : State) : State := { s with out := out ++ s.out }

theorem startAfter_eq (cwd : Path) (root : Bytes) (out : List Token) :
    State.startAfter cwd root out = (State.start cwd root).after out := by
  rw [State.startAfter, State.start, State.after, List.append_nil]

theorem call_after (out : List Token) (s : State) (dirname path : Bytes) :
    (s.after out).call fs opts uninit dirname path =
      Prod.map (State.after out) id (s.call fs opts (fun s => uninit (s.after out)) dirname path) := by
  unfold State.call
  dsimp only [State.after]
  cases fs.opendir s.cwd dirname with
  | none => simp only [Prod.map, id_eq, State.after, List.append_assoc]
  | some found =>
      have hsubdirs : State.subdirs fs opts uninit { s with out := out ++ s.out } =
          State.subdirs fs opts (fun s => uninit { s with out := out ++ s.out }) s := rfl
      simp only [hsubdirs]
      split
      · split
        · rfl
        · simp only [Prod.map, id_eq, State.after, List.append_assoc]
      · rfl

theorem loop_after (out : List Token) (s : State) :
    (s.after out).loop opts = (s.loop opts).map (Prod.map (State.after out) id) := by
  unfold State.loop State.after
  cases s.stack with
  | nil => rfl
  | cons f stack =>
      cases hrest : f.rest with
      | nil => simp [hrest]
      | cons name rest =>
          simp only [hrest]
          split
          · rfl
          · simp

/-- What was printed before does not matter for a step, other than for what an uninitialised `struct
stat` holds. -/
theorem next_after (out : List Token) (s : State) :
    (s.after out).next fs opts uninit =
      (s.next fs opts fun s => uninit (s.after out)).map (Prod.map (State.after out) id) := by
  have hmode : (s.after out).mode = s.mode := rfl
  have hstack : (s.after out).stack = s.stack := rfl
  rw [State.next, State.next, hmode, hstack, loop_after]
  cases s.mode with
  | call dirname path => exact congrArg some (call_after out s dirname path)
  | loop => rfl
  | back =>
      cases s.stack with
      | nil => rfl
      | cons f stack => rfl
  | fault => rfl

theorem step_after {out : List Token} {e : Event} (h : Step fs opts (fun s => uninit (s.after out)) s e t) :
    Step fs opts uninit (s.after out) e (t.after out) := by
  have hnext : s.next fs opts (fun s => uninit (s.after out)) = some (t, e) := h
  rw [Step, next_after, hnext]
  rfl

/-- A call of `list_content_dir` inside the loop, from its first state to its last. -/
theorem content_run (dirs : List Bytes) (out : List Token) {tr : List Event}
    (h : Run (Step fs opts fun s => uninit (s.after out)) s tr t) :
    Reachable (ListDir.Step fs opts uninit cwdText) (.content dirs (s.after out))
      (.content dirs (t.after out)) := by
  induction h with
  | nil => exact Run.nil.reachable
  | @snoc _ e a b _ hlast ih =>
      have hnext : (a.after out).next fs opts uninit = some (b.after out, e) := step_after hlast
      have hstep : ListDir.Step fs opts uninit cwdText (.content dirs (a.after out)) (.inner e)
          (.content dirs (b.after out)) := by
        rw [ListDir.Step, ListDir.next, hnext]
      exact ih.trans (Reachable.single hstep)

/-! ### One directory after the other -/

/-- `list_content_dir` on one directory, called on its own in the directory in which `myls` was started,
returns and has printed `out`. -/
def Alone (fs : FileTree) (opts : Options) (cwd : Path) (dirname : Bytes) (out : List Token) : Prop :=
  ∃ uninit tr s, Run (Step fs opts uninit) (.start cwd dirname) tr s ∧ s.finished ∧ s.out = out

/-- `list_content_dir` on one directory, called on its own, comes to an overflow in `s`. -/
def Overflows (fs : FileTree) (opts : Options) (cwd : Path) (dirname : Bytes) (s : State) : Prop :=
  ∃ uninit tr, Run (Step fs opts uninit) (.start cwd dirname) tr s ∧ s.mode = .fault

/-- The end of `list_dir`: the directories were listed one after the other, or some of them up to an
overflow. -/
inductive ListDir.Ends (fs : FileTree) (opts : Options) (cwd : Path) (dirs : List Bytes)
    (out : List Token) : ListDir → Prop where
  | returned {outs : List (List Token)} : List.Forall₂ (Alone fs opts cwd) dirs outs →
      Ends fs opts cwd dirs out (.loop [] cwd (out ++ outs.flatten))
  | overflow {before after : List Bytes} {dirname : Bytes} {outs : List (List Token)} {s : State} :
      dirs = before ++ dirname :: after → List.Forall₂ (Alone fs opts cwd) before outs →
      Overflows fs opts cwd dirname s →
      Ends fs opts cwd dirs out (.content after (s.after (out ++ outs.flatten)))

/-- `cwd` holds the absolute path of the directory in which `myls` was started. -/
structure LeadsBack (fs : FileTree) (cwdText : Bytes) (cwd : Path) : Prop where
  absolute : cwdText.head? = some 47
  chdir : fs.chdir cwd cwdText = some cwd

/-- An absolute path leads to the same directory from everywhere. -/
theorem LeadsBack.from (h : LeadsBack fs cwdText cwd) (p : Path) : fs.chdir p cwdText = some cwd := by
  have hsame : fs.resolve p cwdText = fs.resolve cwd cwdText := by
    rw [FileTree.resolve, FileTree.resolve, if_pos h.absolute, if_pos h.absolute]
  rw [FileTree.chdir, hsame]
  exact h.chdir

/-- `chdir(cwd)` after a call that has returned. -/
theorem chdir_step (h : LeadsBack fs cwdText cwd) (hfinished : s.finished) (dirs : List Bytes)
    (out : List Token) : ListDir.Step fs opts uninit cwdText (.content dirs (s.after out)) (.chdir cwd)
      (.loop dirs cwd (out ++ s.out)) := by
  have hafter : (s.after out).finished := hfinished
  have hnext : (s.after out).next fs opts uninit = none := by
    rw [State.next, hafter.1, hafter.2]
  have hback : (s.after out).mode = .back := hafter.1
  rw [ListDir.Step, ListDir.next, hnext, hback, if_pos rfl, h.from, Option.getD_some]
  rfl

/-- The listing of a directory in front of the rest. -/
theorem ListDir.Ends.cons {dirname : Bytes} {dirs : List Bytes} {out o : List Token}
    (h : w.Ends fs opts cwd dirs (out ++ o)) (ho : Alone fs opts cwd dirname o) :
    w.Ends fs opts cwd (dirname :: dirs) out := by
  cases h with
  | @returned outs houts =>
      have hends : ListDir.Ends fs opts cwd (dirname :: dirs) out
          (.loop [] cwd (out ++ (o :: outs).flatten)) := .returned (.cons ho houts)
      rwa [List.flatten_cons, ← List.append_assoc] at hends
  | @overflow before after d outs s hdirs houts hfault =>
      have hends : ListDir.Ends fs opts cwd (dirname :: dirs) out
          (.content after (s.after (out ++ (o :: outs).flatten))) :=
        .overflow (congrArg (dirname :: ·) hdirs) (.cons ho houts) hfault
      rwa [List.flatten_cons, ← List.append_assoc] at hends

theorem exists_end (h : LeadsBack fs cwdText cwd) (dirs : List Bytes) (out : List Token) :
    ∃ w, Reachable (ListDir.Step fs opts uninit cwdText) (.loop dirs cwd out) w ∧
      w.Ends fs opts cwd dirs out := by
  induction dirs generalizing out with
  | nil =>
      have hends : ListDir.Ends fs opts cwd [] out (.loop [] cwd (out ++ List.flatten [])) := .returned .nil
      rw [List.flatten_nil, List.append_nil] at hends
      exact ⟨_, Run.nil.reachable, hends⟩
  | cons dirname dirs ih =>
      obtain ⟨tr, s, hrun, -, hend⟩ :=
        exists_stopped fs opts (fun s => uninit (s.after out)) cwd dirname
      have hcall : ListDir.Step fs opts uninit cwdText (.loop (dirname :: dirs) cwd out) (.call dirname)
          (.content dirs ((State.start cwd dirname).after out)) := by
        rw [ListDir.Step, ListDir.next, startAfter_eq]
      have hinside := (Reachable.single hcall).trans (content_run dirs out hrun)
      rcases hend with hfinished | hfault
      · have hback : ListDir.Step fs opts uninit cwdText (.content dirs (s.after out)) (.chdir cwd)
            (.loop dirs cwd (out ++ s.out)) := chdir_step h hfinished dirs out
        obtain ⟨w, hrest, hw⟩ := ih (out ++ s.out)
        exact ⟨w, (hinside.trans (Reachable.single hback)).trans hrest,
          hw.cons ⟨_, tr, s, hrun, hfinished, rfl⟩⟩
      · have hends : ListDir.Ends fs opts cwd ([] ++ dirname :: dirs) out
            (.content dirs (s.after (out ++ List.flatten []))) := .overflow rfl .nil ⟨_, tr, hrun, hfault⟩
        rw [List.flatten_nil, List.append_nil] at hends
        exact ⟨_, hinside, hends⟩

theorem ListDir.step_deterministic {w₁ w₂ : ListDir} {e₁ e₂ : DirEvent}
    (h₁ : ListDir.Step fs opts uninit cwdText w e₁ w₁) (h₂ : ListDir.Step fs opts uninit cwdText w e₂ w₂) :
    e₁ = e₂ ∧ w₁ = w₂ := by
  have heq := h₁.symm.trans h₂
  cases heq
  exact ⟨rfl, rfl⟩

theorem ListDir.Ends.not_step {dirs : List Bytes} {out : List Token} (h : w.Ends fs opts cwd dirs out)
    (e : DirEvent) : ¬ ListDir.Step fs opts uninit cwdText w e w' := by
  cases h with
  | returned => rintro ⟨⟩
  | @overflow before after dirname outs s hdirs houts hoverflow =>
      obtain ⟨-, -, -, hfault⟩ := hoverflow
      have hmode : (s.after (out ++ outs.flatten)).mode = .fault := hfault
      have hnext : (s.after (out ++ outs.flatten)).next fs opts uninit = none := by rw [State.next, hmode]
      rw [ListDir.Step, ListDir.next, hnext, hmode]
      rintro ⟨⟩

/-- **Each directory is listed as if it were the only one.** If the path that `getcwd` returned leads back to
the directory in which `myls` was started, whose result `list_dir` does not check, then the next listing starts
there, whatever the calls of `chdir` in a listing lead to; only an overflow ends the loop before the last
directory. -/
theorem listDir_separately (fs : FileTree) (opts : Options) (uninit : State → Bool) (cwdText : Bytes)
    (cwd : Path) (h : LeadsBack fs cwdText cwd) (dirs : List Bytes) (out : List Token) :
    ∃ tr w, Run (ListDir.Step fs opts uninit cwdText) (.loop dirs cwd out) tr w ∧
      w.Ends fs opts cwd dirs out ∧
      ∀ tr' w', Run (ListDir.Step fs opts uninit cwdText) (.loop dirs cwd out) tr' w' →
        ∃ rest, tr = tr' ++ rest ∧ Run (ListDir.Step fs opts uninit cwdText) w' rest w := by
  obtain ⟨w, ⟨tr, hrun⟩, hends⟩ := exists_end h dirs out
  exact ⟨tr, w, hrun, hends, fun tr' w' hrun' => Run.extends_to_final
    (fun _ _ _ _ _ => ListDir.step_deterministic) (fun e _ => hends.not_step e) hrun hrun'⟩

theorem sampleTree_leadsBack : LeadsBack sampleTree (ascii "/") [] := ⟨rfl, rfl⟩

/-- `t/x` does not exist, and `t/` is listed after it. -/
theorem listDir_separately_sample :
    ∃ tr w, Run (ListDir.Step sampleTree recursive (fun _ => true) (ascii "/"))
        (.loop [ascii "t/x", ascii "t/"] [] []) tr w ∧
      w.Ends sampleTree recursive [] [ascii "t/x", ascii "t/"] [] := by
  obtain ⟨tr, w, hrun, hends, -⟩ := listDir_separately sampleTree recursive (fun _ => true) (ascii "/") []
    sampleTree_leadsBack [ascii "t/x", ascii "t/"] []
  exact ⟨tr, w, hrun, hends⟩

/-! ### The whole output -/

/-- An argument that is a directory which can be listed: its own entries, or with `-R` those of all the
directories below it. -/
def Accessible (fs : FileTree) (opts : Options) (cwd : Path) (root : Bytes) (r : Path) : Prop :=
  if opts.R then Listable fs opts cwd root r
  else fs.resolve cwd root = some r ∧
    ∃ entries, fs.node r = some (.dir true true entries) ∧ entries.length ≤ maxFileNum

/-- The directories that are listed for an argument. -/
def listedFor (fs : FileTree) (opts : Options) (r : Path) : List (List Bytes) :=
  if opts.R then visits fs opts r else [[]]

/-- A directory that can be opened is listed without those below it. -/
theorem plain_prints (hR : opts.R = false) {root : Bytes} {r : Path} {entries : List Bytes}
    (hresolve : fs.resolve cwd root = some r) (hnode : fs.node r = some (.dir true true entries))
    (hlen : entries.length ≤ maxFileNum) :
    Reachable (Step fs opts uninit) (.start cwd root) ⟨r, .back, [], sectionOf fs root r []⟩ := by
  have henter : fs.canEnter r = true := FileTree.canEnter_of_node hnode
  have hcall : Step fs opts uninit (.start cwd root) (.list r r)
      ⟨r, .loop, [⟨r, [], []⟩], sectionOf fs root r []⟩ := by
    have hempty : (([] : Bytes).length < maxFileName) = True := eq_true (by decide)
    simp only [Step, State.next, State.start, State.call, FileTree.opendir_of_node hresolve hnode, hlen,
      FileTree.chdir_of_resolve hresolve, henter, State.subdirs, hR, parentPath, sectionOf, header,
      List.append_nil, entriesOf_dir hnode, hempty, and_self, if_true, Option.getD_some, Bool.false_eq_true,
      if_false, List.nil_append]
  have hleave : Step fs opts uninit ⟨r, .loop, [⟨r, [], []⟩], sectionOf fs root r []⟩ .leave
      ⟨r, .back, [], sectionOf fs root r []⟩ := rfl
  exact (Reachable.single hcall).trans (Reachable.single hleave)

theorem Accessible.prints {root : Bytes} {r : Path} (h : Accessible fs opts cwd root r) :
    ∃ s, Reachable (Step fs opts uninit) (.start cwd root) s ∧ s.finished ∧
      s.out = (listedFor fs opts r).flatMap (sectionOf fs root r) := by
  unfold Accessible at h
  unfold listedFor
  cases hR : opts.R with
  | false =>
      rw [hR] at h
      obtain ⟨hresolve, entries, hnode, hlen⟩ := h
      refine ⟨_, plain_prints hR hresolve hnode hlen, ⟨rfl, rfl⟩, ?_⟩
      simp
  | true =>
      rw [hR, if_pos rfl] at h
      have hprints : Prints fs opts uninit root r (fs.height + 1) [] :=
        h.prints hR (.refl []) (by rw [List.append_nil]; omega)
      have hresolve : fs.resolve cwd root = some (r ++ []) := by rw [List.append_nil]; exact h.resolve
      exact ⟨_, hprints cwd root [] [] [] hresolve rfl (by decide), ⟨rfl, rfl⟩, rfl⟩

/-- A call for a directory that is accessible stops after its listing. -/
theorem Accessible.out_eq {root : Bytes} {r : Path} (h : Accessible fs opts cwd root r) {tr : List Event}
    (hrun : Run (Step fs opts uninit) (.start cwd root) tr s) (hstopped : s.mode = .fault ∨ s.finished) :
    s.finished ∧ s.out = (listedFor fs opts r).flatMap (sectionOf fs root r) := by
  obtain ⟨s', ⟨tr', hrun'⟩, hfinished', hout⟩ : ∃ s, Reachable (Step fs opts uninit) (.start cwd root) s ∧ _ :=
    h.prints
  have hfinal : ∀ e u, ¬ Step fs opts uninit s e u := fun _ _ => not_step_of_stopped hstopped
  obtain ⟨rest, -, hrest⟩ : ∃ rest, tr = tr' ++ rest ∧ Run (Step fs opts uninit) s' rest s :=
    Run.extends_to_final (fun _ _ _ _ _ => step_deterministic) hfinal hrun hrun'
  cases rest with
  | nil =>
      rw [← hrest.nil_inv]
      exact ⟨hfinished', hout⟩
  | cons e rest =>
      obtain ⟨u, hstep, -⟩ := hrest.cons_inv
      exact absurd hstep (not_step_of_finished hfinished' e u)

/-- The bytes of one directory with its header. -/
def directoryText (lib : Library) (o : Settings) (stat : Path → Bytes → Stat) (fs : FileTree) (root : Bytes)
    (r : Path) (names : List Bytes) : Bytes :=
  header root names ++ ascii ":\n" ++
    listFile lib o (stat (r ++ names)) true (entriesOf fs (r ++ names)) ++ ascii "\n"

/-- The bytes that are printed for a directory among the arguments. -/
def argumentText (lib : Library) (o : Settings) (stat : Path → Bytes → Stat) (fs : FileTree) (cwd : Path)
    (root : Bytes) : Bytes :=
  let r := (fs.resolve cwd root).getD cwd
  (listedFor fs o.toOptions r).flatMap (directoryText lib o stat fs root r)

variable {lib : Library} {o : Settings} {stat : Path → Bytes → Stat}

theorem text_put (text : Bytes) : (put text).flatMap (Token.text lib o stat) = text := by
  induction text with
  | nil => rfl
  | cons c text ih => exact congrArg (c :: ·) ih

theorem text_sectionOf (root : Bytes) (r : Path) (names : List Bytes) :
    (sectionOf fs root r names).flatMap (Token.text lib o stat) =
      directoryText lib o stat fs root r names := by
  rw [sectionOf, List.flatMap_append, List.flatMap_cons, text_put, text_put, directoryText, Token.text,
    List.append_assoc _ _ (ascii "\n")]

theorem Accessible.resolve {root : Bytes} {r : Path} (h : Accessible fs opts cwd root r) :
    fs.resolve cwd root = some r := by
  unfold Accessible at h
  split at h
  · exact h.resolve
  · exact h.1

theorem Accessible.text {root : Bytes} {r : Path} {out : List Token}
    (h : Accessible fs o.toOptions cwd root r) (halone : Alone fs o.toOptions cwd root out) :
    out.flatMap (Token.text lib o stat) = argumentText lib o stat fs cwd root := by
  obtain ⟨uninit, tr, s, hrun, hfinished, rfl⟩ := halone
  rw [(h.out_eq hrun (.inr hfinished)).2, argumentText, h.resolve, Option.getD_some, List.flatMap_assoc]
  exact List.flatMap_congr fun names _ => text_sectionOf root r names

/-- The listings of directories that are accessible, as bytes. -/
theorem text_of_alone {dirs : List Bytes} {outs : List (List Token)}
    (h : List.Forall₂ (Alone fs o.toOptions cwd) dirs outs)
    (hdirs : ∀ d ∈ dirs, ∃ r, Accessible fs o.toOptions cwd d r) :
    outs.flatten.flatMap (Token.text lib o stat) = dirs.flatMap (argumentText lib o stat fs cwd) := by
  induction h with
  | nil => rfl
  | cons hfirst _ ih =>
      obtain ⟨⟨r, hr⟩, hrest⟩ := List.forall_mem_cons.mp hdirs
      rw [List.flatten_cons, List.flatMap_append, List.flatMap_cons, hr.text hfirst, ih hrest]

/-- Without overflows every directory is listed. -/
theorem ListDir.Ends.returned_of_accessible {dirs : List Bytes} {out : List Token}
    (h : w.Ends fs opts cwd dirs out) (hdirs : ∀ d ∈ dirs, ∃ r, Accessible fs opts cwd d r) :
    ∃ outs, List.Forall₂ (Alone fs opts cwd) dirs outs ∧ w = .loop [] cwd (out ++ outs.flatten) := by
  cases h with
  | returned houts => exact ⟨_, houts, rfl⟩
  | overflow heq houts hoverflow =>
      obtain ⟨uninit, tr, hrun, hfault⟩ := hoverflow
      obtain ⟨r, hr⟩ := hdirs _ (heq ▸ List.mem_append_right _ List.mem_cons_self)
      have hback := (hr.out_eq hrun (.inl hfault)).1.1
      rw [hfault] at hback
      cases hback

/-- **What `myls` prints.** If the arguments are accepted, the directories among them can be listed and the path
that `getcwd` returned leads back, then every run goes on to the one end, with the files first and then each
directory in the order of the arguments. With `-l` every user and group has a name, which `list_attr` takes for
granted. -/
theorem main_prints (lib : Library) (stat : Path → Bytes → Stat) (uninit : State → Bool) {sys : System}
    {argv : List Bytes} {acc : Accepted} (hmain : main sys argv = .ok acc)
    (hback : LeadsBack fs acc.cwd cwd)
    (hdirs : ∀ d ∈ acc.paths.dir, ∃ r, Accessible fs acc.flags.settings.toOptions cwd d r) :
    ∃ tr out, Run (ListDir.Step fs acc.flags.settings.toOptions uninit acc.cwd)
        (.start lib stat acc cwd) tr (.loop [] cwd out) ∧
      (∀ tr' w', Run (ListDir.Step fs acc.flags.settings.toOptions uninit acc.cwd)
          (.start lib stat acc cwd) tr' w' →
        ∃ rest, tr = tr' ++ rest ∧
          Run (ListDir.Step fs acc.flags.settings.toOptions uninit acc.cwd) w' rest (.loop [] cwd out)) ∧
      out.flatMap (Token.text lib acc.flags.settings stat) =
        listFile lib acc.flags.settings (stat cwd) false ((params argv).filter (isFile sys acc.flags)) ++
          ((params argv).filter fun name => !isFile sys acc.flags name).flatMap
            (argumentText lib acc.flags.settings stat fs cwd) := by
  have haccepts := main_eq_ok.mp hmain
  obtain ⟨w, ⟨tr, hrun⟩, hends⟩ :
      ∃ w, Reachable (ListDir.Step fs acc.flags.settings.toOptions uninit acc.cwd)
          (.start lib stat acc cwd) w ∧
        w.Ends fs acc.flags.settings.toOptions cwd acc.paths.dir
          (put (listFile lib acc.flags.settings (stat cwd) false acc.paths.file)) :=
    exists_end hback acc.paths.dir _
  obtain ⟨outs, houts, rfl⟩ := hends.returned_of_accessible hdirs
  refine ⟨tr, _, hrun, fun tr' w' hrun' => Run.extends_to_final
    (fun _ _ _ _ _ => ListDir.step_deterministic) (fun e _ => hends.not_step e) hrun hrun', ?_⟩
  rw [List.flatMap_append, text_put, text_of_alone houts hdirs, haccepts.file, haccepts.dir]

/-- `myls t/ -R t/` -/
def sampleAccepted : Accepted := ⟨flagsOf [.R], ⟨[], [ascii "t/", ascii "t/"]⟩, ascii "/"⟩

theorem main_prints_sample :
    ∃ tr out, Run (ListDir.Step sampleTree recursive (fun _ => true) (ascii "/"))
        (.start sampleLibrary (fun _ => farStat) sampleAccepted []) tr (.loop [] [] out) ∧
      out.flatMap (Token.text sampleLibrary (flagsOf [.R]).settings fun _ => farStat) =
        [ascii "t/", ascii "t/"].flatMap
          (argumentText sampleLibrary (flagsOf [.R]).settings (fun _ => farStat) sampleTree []) := by
  have hmain : main sampleSystem [ascii "t/", ascii "-R", ascii "t/"] = .ok sampleAccepted := rfl
  have hdirs : ∀ d ∈ sampleAccepted.paths.dir,
      ∃ r, Accessible sampleTree sampleAccepted.flags.settings.toOptions [] d r := by
    have hlistable : ∃ r, Accessible sampleTree recursive [] (ascii "t/") r :=
      ⟨[ascii "t"], sampleTree_listable⟩
    exact List.forall_mem_cons.mpr ⟨hlistable, List.forall_mem_singleton.mpr hlistable⟩
  obtain ⟨tr, out, hrun, -, hout⟩ := main_prints sampleLibrary (fun _ => farStat) (fun _ => true) hmain
    sampleTree_leadsBack hdirs
  exact ⟨tr, out, hrun, hout⟩

end SmallTrial.Listing

import SmallTrial.ListingDirectory
import SmallTrial.ListingSections

/-! The buffers of `list_content_dir`: `filename`, `dirRev` and `_path` are on the stack of each call, and
nothing compares what is written with their sizes. -/

namespace SmallTrial.Listing

open Text Files Transition

/-- `filename[MAX_FILE_NUM][MAX_FILE_NAME]`, `dirRev[MAX_FILE_NUM]` and `_path[MAX_FILE_NAME]` -/
inductive Local where
  | filename
  | dirRev
  | path
  deriving DecidableEq

def Local.size : Local → Nat
  | .filename => maxFileNum * maxFileName
  | .dirRev => maxFileNum
  | .path => maxFileName

/-- Elements of a buffer that are written. -/
structure Write where
  buffer : Local
  start : Nat
  length : Nat
  deriving DecidableEq

def Write.InBounds (w : Write) : Prop := w.start + w.length ≤ w.buffer.size

instance (w : Write) : Decidable w.InBounds := inferInstanceAs (Decidable (_ ≤ _))

/-- The two calls of `strcat` that make `_path` the parent of the subdirectories. -/
def strcatWrites (path dirname : Bytes) : List Write :=
  ⟨.path, path.length, dirname.length + 1⟩ ::
    if (path ++ dirname).getLast? = some 47 then [] else [⟨.path, (path ++ dirname).length, 2⟩]

/-- What a call writes for the names and the subdirectories that it finds. -/
def callWrites (dirname path : Bytes) (entries subdirs : List Bytes) : List Write :=
  ⟨.path, 0, path.length + 1⟩ ::
    (entries.zipIdx.map (fun x => ⟨.filename, x.2 * maxFileName, x.1.length + 1⟩) ++
      (List.range subdirs.length).map (fun j => ⟨.dirRev, j, 1⟩) ++
      if subdirs = [] then [] else strcatWrites path dirname)

variable (fs : FileTree) (opts : Options) (uninit : State → Bool)

/-- The names that a call finds, and the subdirectories among them. -/
def State.found (s : State) (dirname : Bytes) : Option (List Bytes × List Bytes) :=
  (fs.opendir s.cwd dirname).map fun x =>
    (x.2, s.subdirs fs opts uninit ((fs.chdir s.cwd dirname).getD s.cwd) x.2)

/-- What the next step writes into the buffers. -/
def State.writes (s : State) : List Write :=
  match s.mode with
  | .call dirname path =>
      match s.found fs opts uninit dirname with
      | some (entries, subdirs) => callWrites dirname path entries subdirs
      | none => []
  | _ => []

/-- There are at most `MAX_FILE_NUM` names in the directory, and if it has subdirectories, its path with a
slash is shorter than `MAX_FILE_NAME`. -/
def State.Fits (s : State) : Prop :=
  match s.mode with
  | .call dirname path => ∀ entries subdirs, s.found fs opts uninit dirname = some (entries, subdirs) →
      entries.length ≤ maxFileNum ∧ (subdirs ≠ [] → (withSlash (path ++ dirname)).length < maxFileName)
  | _ => True

variable {fs opts uninit}

/-! ### Writes of one call -/

theorem length_collect_le (cwd : Path) (dir : Bool) (names : List Bytes) :
    (collect fs cwd dir names).length ≤ names.length := by
  induction names generalizing dir with
  | nil => exact Nat.le_refl 0
  | cons name names ih =>
      rw [collect]
      split
      · exact Nat.succ_le_succ (ih _)
      · exact Nat.le_succ_of_le (ih _)

theorem strcatWrites_inBounds_iff (path dirname : Bytes) :
    (∀ w ∈ strcatWrites path dirname, w.InBounds) ↔
      (withSlash (path ++ dirname)).length < maxFileName := by
  unfold strcatWrites withSlash
  split
  · simp [Write.InBounds, Local.size]
    omega
  · simp [Write.InBounds, Local.size]
    omega

/-- Names are at most 255 bytes long, so that only the number of rows matters. -/
theorem rows_inBounds_iff {entries : List Bytes} (hname : ∀ n ∈ entries, n.length ≤ 255) :
    (∀ w ∈ entries.zipIdx.map (fun x => (⟨.filename, x.2 * maxFileName, x.1.length + 1⟩ : Write)),
      w.InBounds) ↔ entries.length ≤ maxFileNum := by
  rw [List.forall_mem_map]
  constructor
  · intro h
    by_contra hlong
    rw [Nat.not_le] at hlong
    have hlast := h (entries[maxFileNum], maxFileNum)
      (List.mem_zipIdx_iff_getElem?.mpr (List.getElem?_eq_getElem hlong))
    simp only [Write.InBounds, Local.size] at hlast
    omega
  · rintro hlen ⟨n, i⟩ hmem
    have hi := List.snd_lt_of_mem_zipIdx hmem
    have hn := hname n (List.fst_mem_of_mem_zipIdx hmem)
    simp only [Write.InBounds, Local.size, maxFileNum, maxFileName] at *
    omega

/-- A call whose directory has a path that fits stays inside its buffers exactly if the names and the path
of the subdirectories fit as well. -/
theorem callWrites_inBounds_iff {dirname path : Bytes} {entries subdirs : List Bytes}
    (hname : ∀ n ∈ entries, n.length ≤ 255) (hsub : subdirs.length ≤ entries.length)
    (hpath : path.length < maxFileName) :
    (∀ w ∈ callWrites dirname path entries subdirs, w.InBounds) ↔
      entries.length ≤ maxFileNum ∧
        (subdirs ≠ [] → (withSlash (path ++ dirname)).length < maxFileName) := by
  have hcopy : Write.InBounds ⟨.path, 0, path.length + 1⟩ := by
    simp only [Write.InBounds, Local.size]
    omega
  have hindices : entries.length ≤ maxFileNum →
      ∀ w ∈ (List.range subdirs.length).map (fun j => (⟨.dirRev, j, 1⟩ : Write)), w.InBounds := by
    intro hlen
    rw [List.forall_mem_map]
    intro j hj
    have hj := List.mem_range.mp hj
    simp only [Write.InBounds, Local.size]
    omega
  have hstrcat : (∀ w ∈ (if subdirs = [] then [] else strcatWrites path dirname), w.InBounds) ↔
      (subdirs ≠ [] → (withSlash (path ++ dirname)).length < maxFileName) := by
    by_cases hnil : subdirs = []
    · simp [hnil]
    · simp only [hnil, if_false, ne_eq, not_false_eq_true, forall_const]
      exact strcatWrites_inBounds_iff path dirname
  rw [callWrites, List.forall_mem_cons, and_iff_right hcopy, List.forall_mem_append,
    List.forall_mem_append, rows_inBounds_iff hname, hstrcat]
  exact ⟨fun h => ⟨h.1.1, h.2⟩, fun h => ⟨⟨h.1, hindices h.1⟩, h.2⟩⟩

/-! ### Runs -/

/-- The texts in `_path` of the calls in progress, and the one that is passed to the next call, fit. -/
structure PathsFit (s : State) : Prop where
  call : ∀ dirname path, s.mode = .call dirname path → path.length < maxFileName
  frame : ∀ f ∈ s.stack, f.path.length < maxFileName

theorem length_of_strcat {dst text path : Bytes} (h : strcat dst text = some path) :
    path.length < maxFileName := by
  rw [strcat] at h
  split at h
  · cases h
    assumption
  · cases h

theorem length_of_parentPath {path path' dirname : Bytes} {subdirs : List Bytes}
    (hpath : path.length < maxFileName) (h : parentPath path dirname subdirs = some path') :
    path'.length < maxFileName := by
  rw [parentPath] at h
  split at h
  · cases h
    exact hpath
  · obtain ⟨text, htext, h⟩ := Option.bind_eq_some_iff.mp h
    split at h
    · cases h
      exact length_of_strcat htext
    · exact length_of_strcat h

variable {s t : State} {e : Event}

/-- A call that lists a directory stores the text that the two `strcat` leave. -/
theorem parentPath_of_list {dirname path : Bytes} (hmode : s.mode = .call dirname path) {f : Frame}
    {listed : Path} {stack : List Frame}
    (hstep : Step fs opts uninit s (.list listed t.cwd) t) (hstack : t.stack = f :: stack) :
    parentPath path dirname f.rest = some f.path := by
  unfold Step State.next at hstep
  rw [hmode] at hstep
  have hcall := Option.some.inj hstep
  unfold State.call at hcall
  split at hcall
  · cases hcall
  · split at hcall
    · dsimp only at hcall
      split at hcall
      · cases hcall
      · cases hcall
        cases hstack
        assumption
    · cases hcall

/-- The path of the innermost call fits, and so do those of the calls around it. -/
theorem PathsFit.frame_cons (h : PathsFit s) {f : Frame} {stack : List Frame}
    (hstack : s.stack = f :: stack) :
    f.path.length < maxFileName ∧ ∀ g ∈ stack, g.path.length < maxFileName :=
  List.forall_mem_cons.mp (hstack ▸ h.frame)

theorem pathsFit_step (h : PathsFit s) (hstep : Step fs opts uninit s e t) : PathsFit t := by
  have heffect := effect_of_step hstep
  cases heffect with
  | accessError | fault =>
      refine ⟨fun _ _ hcall => ?_, h.frame⟩
      cases hcall
  | list path' out hmode =>
      refine ⟨fun _ _ hcall => (by cases hcall), List.forall_mem_cons.mpr ⟨?_, h.frame⟩⟩
      exact length_of_parentPath (h.call _ _ hmode) (parentPath_of_list hmode hstep rfl)
  | leave hmode hstack =>
      refine ⟨fun _ _ hcall => ?_, (h.frame_cons hstack).2⟩
      cases hcall
  | skip hmode hstack =>
      obtain ⟨hinner, houter⟩ := h.frame_cons hstack
      refine ⟨fun _ _ hcall => ?_, List.forall_mem_cons.mpr ⟨hinner, houter⟩⟩
      cases hmode.symm.trans hcall
  | recurse out hmode hstack =>
      obtain ⟨hinner, houter⟩ := h.frame_cons hstack
      refine ⟨fun _ _ hcall => ?_, List.forall_mem_cons.mpr ⟨hinner, houter⟩⟩
      cases hcall
      exact hinner
  | back hmode hstack =>
      refine ⟨fun _ _ hcall => ?_, hstack ▸ h.frame⟩
      cases hcall

theorem pathsFit_of_reachable {cwd : Path} {root : Bytes}
    (h : Reachable (Step fs opts uninit) (.start cwd root) s) : PathsFit s := by
  obtain ⟨tr, hrun⟩ := h
  refine hrun.stateInvariant PathsFit ⟨fun dirname path hmode => ?_, fun f hf => ?_⟩
    fun _ _ _ hfit hstep => pathsFit_step hfit hstep
  · cases hmode
    decide
  · cases hf

/-- The names of a directory are short, and its subdirectories are among them. -/
theorem State.found_eq_some {dirname : Bytes} {entries subdirs : List Bytes}
    (h : s.found fs opts uninit dirname = some (entries, subdirs)) :
    (∀ n ∈ entries, n.length ≤ 255) ∧ subdirs.length ≤ entries.length := by
  obtain ⟨⟨listed, entries'⟩, hopen, heq⟩ := Option.map_eq_some_iff.mp h
  cases heq
  obtain ⟨-, e, hnode⟩ := FileTree.opendir_eq_some hopen
  refine ⟨fun n hn => (fs.name _ _ _ _ hnode n hn).2.2.2, ?_⟩
  unfold State.subdirs
  split
  · exact length_collect_le _ _ _
  · exact Nat.zero_le _

theorem fits_of_found_none {dirname path : Bytes} (hmode : s.mode = .call dirname path)
    (h : s.found fs opts uninit dirname = none) : s.Fits fs opts uninit := by
  unfold State.Fits
  rw [hmode]
  intro entries subdirs hfound
  rw [h] at hfound
  cases hfound

theorem fits_iff_of_found {dirname path : Bytes} (hmode : s.mode = .call dirname path)
    {entries subdirs : List Bytes} (h : s.found fs opts uninit dirname = some (entries, subdirs)) :
    s.Fits fs opts uninit ↔ entries.length ≤ maxFileNum ∧
      (subdirs ≠ [] → (withSlash (path ++ dirname)).length < maxFileName) := by
  unfold State.Fits
  rw [hmode]
  constructor
  · exact fun hfits => hfits entries subdirs h
  · intro hfits _ _ hfound
    cases h.symm.trans hfound
    exact hfits

/-- In a state that is reached, the next step stays inside the buffers exactly if what it finds fits. -/
theorem writes_inBounds_iff (h : PathsFit s) :
    (∀ w ∈ s.writes fs opts uninit, w.InBounds) ↔ s.Fits fs opts uninit := by
  unfold State.writes
  cases hmode : s.mode with
  | loop | back | fault => simp [State.Fits, hmode]
  | call dirname path =>
      dsimp only
      cases hfound : s.found fs opts uninit dirname with
      | none => exact iff_of_true (List.forall_mem_nil _) (fits_of_found_none hmode hfound)
      | some found =>
          obtain ⟨hname, hsub⟩ := State.found_eq_some hfound
          rw [fits_iff_of_found hmode hfound]
          exact callWrites_inBounds_iff hname hsub (h.call dirname path hmode)

/-- **When the buffers of `list_content_dir` are large enough.** The states are those before the first
overflow, with the one in which it happens. -/
theorem buffers_iff (fs : FileTree) (opts : Options) (uninit : State → Bool) (cwd : Path) (root : Bytes) :
    (∀ s, Reachable (Step fs opts uninit) (.start cwd root) s →
      ∀ w ∈ s.writes fs opts uninit, w.InBounds) ↔
    ∀ s, Reachable (Step fs opts uninit) (.start cwd root) s → s.Fits fs opts uninit :=
  forall₂_congr fun _ h => writes_inBounds_iff (pathsFit_of_reachable h)

theorem parentPath_isSome_iff {path dirname : Bytes} {subdirs : List Bytes} :
    (parentPath path dirname subdirs).isSome ↔
      (subdirs ≠ [] → (withSlash (path ++ dirname)).length < maxFileName) := by
  constructor
  · intro hsome hne
    rw [parentPath, if_neg hne, strcat] at hsome
    unfold withSlash
    split at hsome
    · simp only [Option.bind_eq_bind, Option.bind_some] at hsome
      split
      · assumption
      · rename_i hlast
        rw [if_neg hlast, strcat] at hsome
        split at hsome
        · assumption
        · cases hsome
    · cases hsome
  · intro hfits
    by_cases hnil : subdirs = []
    · rw [parentPath, if_pos hnil]
      rfl
    · rw [parentPath_eq subdirs (hfits hnil)]
      rfl

theorem call_mode_of_found_none {dirname path : Bytes} (h : s.found fs opts uninit dirname = none) :
    (s.call fs opts uninit dirname path).1.mode = .back := by
  have hopen : fs.opendir s.cwd dirname = none := Option.map_eq_none_iff.mp h
  rw [State.call, hopen]

theorem call_mode_of_found {dirname path : Bytes} {entries subdirs : List Bytes}
    (h : s.found fs opts uninit dirname = some (entries, subdirs)) :
    (s.call fs opts uninit dirname path).1.mode = .fault ↔
      ¬ ((path.length < maxFileName ∧ entries.length ≤ maxFileNum) ∧
        (parentPath path dirname subdirs).isSome) := by
  obtain ⟨⟨listed, entries'⟩, hopen, heq⟩ := Option.map_eq_some_iff.mp h
  cases heq
  rw [State.call, hopen]
  dsimp only
  split
  · rename_i hlen
    split
    · rename_i hnone
      simp [hnone]
    · rename_i hsome
      simp [hsome, hlen]
  · rename_i hlen
    simp only [true_iff]
    exact fun hnot => hlen hnot.1

/-- The model stops exactly where a buffer overflows. -/
theorem fault_iff (h : PathsFit s) (hstep : Step fs opts uninit s e t) :
    t.mode = .fault ↔ ¬ s.Fits fs opts uninit := by
  cases hmode : s.mode with
  | call dirname path =>
      unfold Step State.next at hstep
      rw [hmode] at hstep
      have hcall := Option.some.inj hstep
      have ht : t = (s.call fs opts uninit dirname path).1 := (congrArg Prod.fst hcall).symm
      rw [ht]
      cases hfound : s.found fs opts uninit dirname with
      | none =>
          rw [call_mode_of_found_none hfound]
          exact iff_of_false (fun hfault => by cases hfault)
            (fun hnot => hnot (fits_of_found_none hmode hfound))
      | some found =>
          rw [call_mode_of_found hfound, fits_iff_of_found hmode hfound, parentPath_isSome_iff,
            and_iff_right (h.call dirname path hmode)]
  | loop | back | fault =>
      have hfits : s.Fits fs opts uninit := by
        unfold State.Fits
        rw [hmode]
        trivial
      refine iff_of_false (fun hfault => ?_) (fun hnot => hnot hfits)
      have heffect := effect_of_step hstep
      cases heffect with
      | fault hmode' => cases hmode.symm.trans hmode'
      | skip hmode' => cases hmode'.symm.trans hfault
      | accessError | list | leave | recurse | back => cases hfault

/-- Four directories inside each other, with names of 255 bytes. -/
def longName : Bytes := List.replicate 255 97

def deepTable : List (Path × Node) :=
  (List.range 5).map fun k => (List.replicate k longName,
    .dir true true (if k < 4 then [dot, dotdot, longName] else [dot, dotdot]))

theorem deepTable_ok : FileTree.TableOk deepTable 4 where
  length := by decide +kernel
  parent := by decide +kernel
  child := by decide +kernel

def deepTree : FileTree := FileTree.ofTable deepTable 4 deepTable_ok

/-- `myls -R .` overflows `_path` in the innermost directory. -/
theorem path_overflows : ¬ ∀ s, Reachable (Step deepTree recursive fun _ => false) (.start [] dot) s →
    ∀ w ∈ s.writes deepTree recursive fun _ => false, w.InBounds := by
  intro h
  have hreplay : (replay (fun (s : State) (_ : Unit) => s.next deepTree recursive fun _ => false)
      (State.start [] dot) (List.replicate 16 ())).map (fun r =>
        decide (∀ w ∈ r.1.writes deepTree recursive fun _ => false, w.InBounds)) = some false := by
    decide +kernel
  obtain ⟨⟨s, tr⟩, hreplayed, hfalse⟩ := Option.map_eq_some_iff.mp hreplay
  have hrun : Run (Step deepTree recursive fun _ => false) (.start [] dot) tr s :=
    Run.of_replay (fun s _ t e h => by exact h) hreplayed
  exact of_decide_eq_false hfalse (h s hrun.reachable)

end SmallTrial.Listing

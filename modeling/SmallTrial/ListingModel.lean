import SmallTrial.FileTree
import SmallTrial.TransitionRun

/-! `list_content_dir` of `myls`, one step for each call, each iteration of the loop of the recursion and
each `chdir("..")` after it, with the calls that are in progress on a stack. What `list_file` prints is
one token. An uninitialised `struct stat` is a directory or not as the parameter `uninit` says. The stack of
calls has no limit here, although each call holds arrays of 1 MiB. -/

namespace SmallTrial.Listing

open Text Files Transition

/-- `OP_a`, `OP_A` and `OP_R` -/
structure Options where
  a : Bool
  A : Bool
  R : Bool

/-- `myls -R` -/
def recursive : Options := { a := false, A := false, R := true }

def maxFileName : Nat := 1024

def maxFileNum : Nat := 1024

/-- What is printed: a byte, or what `list_file` prints of some names in the current directory. -/
inductive Token where
  | byte (c : UInt8)
  | files (cwd : Path) (names : List Bytes)
  deriving DecidableEq

/-- `printf("%s", text)` -/
def put (text : Bytes) : List Token := text.map .byte

/-- A call in progress: the directory that was opened, `_path`, and the names at the indices of `dirRev`
that the loop has still to visit. -/
structure Frame where
  listed : Path
  path : Bytes
  rest : List Bytes

inductive Mode where
  /-- `list_content_dir(dirname, path)` is called -/
  | call (dirname path : Bytes)
  /-- the head of the loop of the call on top of the stack -/
  | loop
  /-- the call has returned; before the `chdir("..")` of its caller, if there is one -/
  | back
  /-- a buffer has overflowed -/
  | fault
  deriving DecidableEq

structure State where
  cwd : Path
  mode : Mode
  stack : List Frame
  out : List Token

inductive Event where
  | accessError (dirname : Bytes)
  | list (listed cwd : Path)
  | skip (name : Bytes)
  | recurse (name : Bytes)
  | leave
  /-- `chdir("..")` of a call that lists `listed`, with the current directory after it -/
  | back (listed cwd : Path)
  | fault
  deriving DecidableEq

/-- `list_content_dir(root, "")` is called in the directory `cwd`. -/
def State.start (cwd : Path) (root : Bytes) : State := ⟨cwd, .call root [], [], []⟩

/-- The first call has returned. -/
def State.finished (s : State) : Prop := s.mode = .back ∧ s.stack = []

/-- `strcat` onto a text in a buffer of `MAX_FILE_NAME` bytes. -/
def strcat (dst text : Bytes) : Option Bytes :=
  if (dst ++ text).length < maxFileName then some (dst ++ text) else none

/-- `_path` after the subdirectories have been collected. -/
def parentPath (path dirname : Bytes) (subdirs : List Bytes) : Option Bytes :=
  if subdirs = [] then some path
  else do
    let _path ← strcat path dirname
    if _path.getLast? = some 47 then return _path else strcat _path (ascii "/")

/-- The loop that collects the subdirectories; `dir` says whether `fstat` is a directory. A failing
`lstat` leaves `fstat` as it is. -/
def collect (fs : FileTree) (cwd : Path) : Bool → List Bytes → List Bytes
  | _, [] => []
  | dir, name :: names =>
      let dir := ((fs.lstat cwd name).map Node.isDir).getD dir
      if dir then name :: collect fs cwd dir names else collect fs cwd dir names

/-- Whether the loop of the recursion skips a name. -/
def skipped (opts : Options) : Bytes → Bool
  | 46 :: rest =>
      if rest.head? = none ∨ rest.head? = some 46 then true else !opts.a && !opts.A
  | _ => false

/-- `printf(L_RED "myls: cannot access '%s': No such file or directory\n" NONE, dirname)` -/
def accessError (dirname : Bytes) : Bytes :=
  ascii "\x1b[1;31mmyls: cannot access '" ++ dirname ++
    ascii "': No such file or directory\n\x1b[0m"

variable (fs : FileTree) (opts : Options) (uninit : State → Bool)

namespace State

/-- The names of a directory that the loop of the recursion visits. -/
def subdirs (s : State) (cwd : Path) (entries : List Bytes) : List Bytes :=
  if opts.R then collect fs cwd (uninit s) entries else []

/-- `list_content_dir` up to its last loop. -/
def call (s : State) (dirname path : Bytes) : State × Event :=
  match fs.opendir s.cwd dirname with
  | none => ({ s with mode := .back, out := s.out ++ put (accessError dirname) }, .accessError dirname)
  | some (listed, entries) =>
      if path.length < maxFileName ∧ entries.length ≤ maxFileNum then
        let cwd := (fs.chdir s.cwd dirname).getD s.cwd
        let subdirs := s.subdirs fs opts uninit cwd entries
        match parentPath path dirname subdirs with
        | none => ({ s with mode := .fault }, .fault)
        | some _path =>
            ({ cwd, mode := .loop, stack := ⟨listed, _path, subdirs⟩ :: s.stack,
               out := s.out ++ put (dirname ++ ascii ":\n") ++ .files cwd entries :: put (ascii "\n") },
              .list listed cwd)
      else ({ s with mode := .fault }, .fault)

/-- The head of the loop of the recursion. -/
def loop (s : State) : Option (State × Event) :=
  match s.stack with
  | [] => none
  | f :: stack =>
      match f.rest with
      | [] => some ({ s with mode := .back, stack := stack }, .leave)
      | name :: rest =>
          let stack := { f with rest := rest } :: stack
          if skipped opts name then some ({ s with stack := stack }, .skip name)
          else some ({ s with mode := .call name f.path, stack := stack, out := s.out ++ put f.path },
            .recurse name)

def next (s : State) : Option (State × Event) :=
  match s.mode with
  | .call dirname path => some (s.call fs opts uninit dirname path)
  | .loop => s.loop opts
  | .back =>
      match s.stack with
      | [] => none
      | f :: _ => some ({ s with cwd := fs.up s.cwd, mode := .loop }, .back f.listed (fs.up s.cwd))
  | .fault => none

end State

def Step (s : State) (e : Event) (s' : State) : Prop := s.next fs opts uninit = some (s', e)

variable {fs opts}

/-- Where `lstat` always succeeds, the subdirectories are found. -/
theorem collect_eq {p : Path} {names : List Bytes} (h : ∀ n ∈ names, ∃ node, fs.lstat p n = some node)
    (dir : Bool) :
    collect fs p dir names = names.filter fun n => ((fs.lstat p n).map Node.isDir).getD false := by
  induction names generalizing dir with
  | nil => rfl
  | cons name names ih =>
      obtain ⟨node, hnode⟩ := h name List.mem_cons_self
      have htail := ih fun n hn => h n (List.mem_cons_of_mem _ hn)
      rw [collect, List.filter_cons, htail, hnode]
      rfl

/-- The loop skips `.` and `..`. -/
theorem ne_dots_of_not_skipped {n : Bytes} (h : skipped opts n = false) : n ≠ dot ∧ n ≠ dotdot := by
  constructor
  · rintro rfl
    cases h
  · rintro rfl
    cases h

end SmallTrial.Listing

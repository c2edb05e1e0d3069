import SmallTrial.BitFlags
import SmallTrial.ListingFile

/-! The `main` of `myls`: it reads the arguments into `options` and `longformat`, sorts the paths into files
and directories and goes on to `list_file` and `list_dir`. The table of options says what each letter is
for; when `main` and `list_file` keep to it. -/

namespace SmallTrial.Listing

open Text Files

/-- The characters that the switch has a case for; `one` is `1`. -/
inductive Letter where
  | a | A | c | d | S | F | g | G | h | i | l | m | n | o | p | Q | r | R | s | t | u | one
  deriving DecidableEq

namespace Letter

def ofByte : UInt8 → Option Letter
  | 97 => some a
  | 65 => some A
  | 99 => some c
  | 100 => some d
  | 83 => some S
  | 70 => some F
  | 103 => some g
  | 71 => some G
  | 104 => some h
  | 105 => some i
  | 108 => some l
  | 109 => some m
  | 110 => some n
  | 111 => some o
  | 112 => some p
  | 81 => some Q
  | 114 => some r
  | 82 => some R
  | 115 => some s
  | 116 => some t
  | 117 => some u
  | 49 => some one
  | _ => none

/-- The position of `OP_a` and so on in `options`. -/
def bit : Letter → Nat
  | a => 0
  | A => 1
  | c => 2
  | d => 3
  | S => 4
  | F => 5
  | g => 6
  | G => 7
  | h => 8
  | i => 9
  | l => 10
  | m => 11
  | n => 12
  | o => 13
  | p => 14
  | Q => 15
  | r => 16
  | R => 17
  | s => 18
  | t => 19
  | u => 20
  | one => 21

/-- `OP_a` and so on -/
def op (x : Letter) : BitVec 64 := 1#64 <<< x.bit

end Letter

/-- `LONG`, `OWNER`, `GROUP` and `NUM` -/
inductive Format where
  | long | owner | group | num
  deriving DecidableEq

namespace Format

def bit : Format → Nat
  | long => 0
  | owner => 1
  | group => 2
  | num => 3

def mask (y : Format) : BitVec 64 := 1#64 <<< y.bit

end Format

structure Flags where
  options : BitVec 32
  longformat : BitVec 32
  deriving DecidableEq

namespace Flags

def init : Flags := { options := 0, longformat := 6 }

/-- `options & OP_a` and so on -/
def has (f : Flags) (x : Letter) : Bool := BitFlags.test f.options x.op

/-- `longformat & LONG` and so on -/
def shows (f : Flags) (y : Format) : Bool := BitFlags.test f.longformat y.mask

/-- The case of the switch for a letter. -/
def apply (f : Flags) (x : Letter) : Flags :=
  let options := BitFlags.set f.options x.op
  match x with
  | .g => ⟨options, BitFlags.clear (BitFlags.set f.longformat Format.long.mask) Format.owner.mask⟩
  | .G => ⟨options, BitFlags.clear f.longformat Format.owner.mask⟩
  | .l => ⟨options, BitFlags.set f.longformat Format.long.mask⟩
  | .n => ⟨options, BitFlags.set f.longformat Format.num.mask⟩
  | .o => ⟨options, BitFlags.clear (BitFlags.set f.longformat Format.long.mask) Format.group.mask⟩
  | _ => ⟨options, f.longformat⟩

/-- What the functions of the listing read of the flags. -/
def settings (f : Flags) : Settings where
  a := f.has .a
  A := f.has .A
  R := f.has .R
  c := f.has .c
  F := f.has .F
  h := f.has .h
  i := f.has .i
  l := f.has .l
  m := f.has .m
  p := f.has .p
  Q := f.has .Q
  r := f.has .r
  s := f.has .s
  S := f.has .S
  t := f.has .t
  u := f.has .u
  one := f.has .one
  long := f.shows .long
  owner := f.shows .owner
  group := f.shows .group
  num := f.shows .num

end Flags

/-! ### The loops of `main` -/

def maxFileOnce : Nat := 128

/-- What is printed between `L_RED` and `NONE`. -/
def red (text : Bytes) : Bytes := ascii "\x1b[1;31m" ++ text ++ ascii "\x1b[0m"

/-- The loop over the characters after the `-`. -/
def scanOption (f : Flags) (chars : Bytes) : Except Bytes Flags :=
  chars.foldlM (fun f c =>
    match Letter.ofByte c with
    | some x => .ok (f.apply x)
    | none => .error (red (ascii "Error: Unknown option!"))) f

/-- The state of the loop over the arguments. -/
structure Scan where
  flags : Flags
  param : List Bytes

def scanArgument (s : Scan) (arg : Bytes) : Except Bytes Scan :=
  if arg.head? = some 45 then do
    let flags ← scanOption s.flags arg.tail
    return { s with flags := flags }
  else if maxFileName ≤ arg.length then .error (red (ascii "Error: Path too long!"))
  else return { s with param := s.param ++ [arg] }

/-- What the system says of the paths and of the working directory; `none` stands for -1 and `NULL`. -/
structure System where
  lstat : Bytes → Option Stat
  getcwd : Option Bytes

/-- The paths at the indices in `file` and in `dir`. -/
structure Sorted where
  file : List Bytes
  dir : List Bytes

def sortPath (sys : System) (f : Flags) (p : Sorted) (name : Bytes) : Except Bytes Sorted :=
  match sys.lstat name with
  | none => .error (red (ascii "myls: cannot access '" ++ name ++ ascii "': No such file or directory\n"))
  | some st =>
      if f.has .d || !st.isDir then .ok { p with file := p.file ++ [name] }
      else .ok { p with dir := p.dir ++ [name] }

/-- What `main` has when it calls `list_file` and `list_dir`. -/
structure Accepted where
  flags : Flags
  paths : Sorted
  cwd : Bytes

/-- `main`, with the arguments after the name of the program; the error is what it prints before it
returns 1. -/
def main (sys : System) (argv : List Bytes) : Except Bytes Accepted := do
  if maxFileOnce < argv.length + 1 then
    throw (ascii "\x1b[1;31mError: Too many file to print once!")
  let s ← argv.foldlM scanArgument ⟨.init, []⟩
  let param := if s.param = [] then [ascii "./"] else s.param
  let paths ← param.foldlM (sortPath sys s.flags) ⟨[], []⟩
  match sys.getcwd with
  | none => throw (red (ascii "Error: CWD too long!\n"))
  | some cwd => return { flags := s.flags, paths := paths, cwd := cwd }

/-! ### What `main` accepts -/

/-- The letters of an argument. -/
def given (arg : Bytes) : List Letter :=
  if arg.head? = some 45 then arg.tail.filterMap Letter.ofByte else []

/-- The letters of all arguments, in the order of the loops. -/
def letters (argv : List Bytes) : List Letter := argv.flatMap given

/-- The flags when the letters of `ls` were read. -/
def flagsOf (ls : List Letter) : Flags := ls.foldl Flags.apply .init

/-- An option has known letters only, and a path fits into its buffer. -/
def Readable (arg : Bytes) : Prop :=
  if arg.head? = some 45 then ∀ c ∈ arg.tail, (Letter.ofByte c).isSome = true else arg.length < maxFileName

/-- The paths among the arguments. -/
def paths (argv : List Bytes) : List Bytes := argv.filter fun arg => arg.head? ≠ some 45

/-- `param` after the first loop -/
def params (argv : List Bytes) : List Bytes := if paths argv = [] then [ascii "./"] else paths argv

/-- Whether `main` puts a path into `file`. -/
def isFile (sys : System) (f : Flags) (name : Bytes) : Bool := f.has .d || !(sys.lstat name).any Stat.isDir

/-- What `main` makes of the arguments, and of which. -/
structure Accepts (sys : System) (argv : List Bytes) (out : Accepted) : Prop where
  count : argv.length < maxFileOnce
  readable : ∀ arg ∈ argv, Readable arg
  found : ∀ name ∈ params argv, (sys.lstat name).isSome = true
  cwd : sys.getcwd = some out.cwd
  flags : out.flags = flagsOf (letters argv)
  file : out.paths.file = (params argv).filter (isFile sys out.flags)
  dir : out.paths.dir = (params argv).filter fun name => !isFile sys out.flags name

theorem bind_eq_ok {ε : Type*} {α β : Type} {x : Except ε α} {k : α → Except ε β} {b : β} :
    (x >>= k) = .ok b ↔ ∃ a, x = .ok a ∧ k a = .ok b := by
  cases x with
  | error e => simp [bind, Except.bind]
  | ok a => simp [bind, Except.bind]

/-- A loop that stops at the first item that is not right. -/
theorem foldlM_eq_ok {ε σ α : Type} {step : σ → α → Except ε σ} {right : α → Prop} {next : σ → α → σ}
    (hstep : ∀ s a s', step s a = .ok s' ↔ right a ∧ next s a = s') (l : List α) (s s' : σ) :
    l.foldlM step s = .ok s' ↔ (∀ a ∈ l, right a) ∧ l.foldl next s = s' := by
  induction l generalizing s with
  | nil => simp [pure, Except.pure]
  | cons a l ih =>
      rw [List.foldlM_cons, bind_eq_ok, List.forall_mem_cons, List.foldl_cons, and_assoc]
      constructor
      · rintro ⟨s₁, hfirst, hrest⟩
        obtain ⟨ha, rfl⟩ := (hstep s a s₁).mp hfirst
        exact ⟨ha, (ih _).mp hrest⟩
      · rintro ⟨ha, hrest⟩
        exact ⟨next s a, (hstep s a _).mpr ⟨ha, rfl⟩, (ih _).mpr hrest⟩

theorem scanOption_eq_ok {f f' : Flags} {chars : Bytes} : scanOption f chars = .ok f' ↔
    (∀ c ∈ chars, (Letter.ofByte c).isSome = true) ∧
      (chars.filterMap Letter.ofByte).foldl Flags.apply f = f' := by
  rw [List.foldl_filterMap, scanOption]
  refine foldlM_eq_ok (fun f c f' => ?_) chars f f'
  cases Letter.ofByte c with
  | none => simp
  | some x => simp

/-- The state after a readable argument. -/
def Scan.read (s : Scan) (arg : Bytes) : Scan where
  flags := (given arg).foldl Flags.apply s.flags
  param := s.param ++ paths [arg]

theorem scanArgument_eq_ok (s : Scan) (arg : Bytes) (s' : Scan) :
    scanArgument s arg = .ok s' ↔ Readable arg ∧ s.read arg = s' := by
  rw [scanArgument, Readable, Scan.read, given]
  by_cases hoption : arg.head? = some 45
  · have hpaths : s.param ++ paths [arg] = s.param := by simp [paths, hoption]
    rw [if_pos hoption, if_pos hoption, if_pos hoption, bind_eq_ok, hpaths]
    constructor
    · rintro ⟨flags, hscan, hs'⟩
      obtain ⟨hknown, rfl⟩ := scanOption_eq_ok.mp hscan
      exact ⟨hknown, Except.ok.inj hs'⟩
    · rintro ⟨hknown, rfl⟩
      exact ⟨_, scanOption_eq_ok.mpr ⟨hknown, rfl⟩, rfl⟩
  · have hpaths : paths [arg] = [arg] := by simp [paths, hoption]
    rw [if_neg hoption, if_neg hoption, if_neg hoption, hpaths]
    by_cases hlen : maxFileName ≤ arg.length
    · rw [if_pos hlen]
      exact iff_of_false (by simp) fun h => absurd h.1 (Nat.not_lt_of_le hlen)
    · rw [if_neg hlen, and_iff_right (Nat.lt_of_not_le hlen)]
      exact ⟨fun h => Except.ok.inj h, fun h => congrArg Except.ok h⟩

theorem foldl_read (argv : List Bytes) (s : Scan) : argv.foldl Scan.read s =
    { flags := (letters argv).foldl Flags.apply s.flags, param := s.param ++ paths argv } := by
  induction argv generalizing s with
  | nil => simp [letters, paths]
  | cons arg argv ih =>
      have hletters : letters (arg :: argv) = given arg ++ letters argv := List.flatMap_cons
      have hpaths : paths (arg :: argv) = paths [arg] ++ paths argv := List.filter_append [arg] argv
      rw [List.foldl_cons, ih, Scan.read, hletters, hpaths, List.foldl_append, List.append_assoc]

/-- The path goes into `file` or `dir`. -/
def Sorted.add (sys : System) (f : Flags) (p : Sorted) (name : Bytes) : Sorted :=
  if isFile sys f name then { p with file := p.file ++ [name] } else { p with dir := p.dir ++ [name] }

theorem sortPath_eq_ok (sys : System) (f : Flags) (p : Sorted) (name : Bytes) (p' : Sorted) :
    sortPath sys f p name = .ok p' ↔ (sys.lstat name).isSome = true ∧ p.add sys f name = p' := by
  rw [sortPath, Sorted.add, isFile]
  cases sys.lstat name with
  | none => simp
  | some st =>
      rw [Option.any_some, Option.isSome_some, and_iff_right rfl]
      by_cases hfile : (f.has .d || !st.isDir) = true
      · simp only [if_pos hfile, Except.ok.injEq]
      · simp only [if_neg hfile, Except.ok.injEq]

theorem foldl_add (sys : System) (f : Flags) (names : List Bytes) (p : Sorted) :
    names.foldl (Sorted.add sys f) p =
      { file := p.file ++ names.filter (isFile sys f)
        dir := p.dir ++ names.filter fun name => !isFile sys f name } := by
  induction names generalizing p with
  | nil => simp
  | cons name names ih =>
      rw [List.foldl_cons, ih, Sorted.add]
      cases hfile : isFile sys f name <;> simp [hfile]

/-- **What `main` accepts.** -/
theorem main_eq_ok {sys : System} {argv : List Bytes} {out : Accepted} :
    main sys argv = .ok out ↔ Accepts sys argv out := by
  have hscan := foldlM_eq_ok scanArgument_eq_ok argv ⟨.init, []⟩
  have hsort := fun f => foldlM_eq_ok (sortPath_eq_ok sys f) (params argv)
  rw [main]
  by_cases hcount : maxFileOnce < argv.length + 1
  · rw [if_pos hcount]
    refine iff_of_false ?_ fun h => absurd h.count (Nat.not_lt_of_le (Nat.le_of_lt_succ hcount))
    rintro ⟨⟩
  · rw [if_neg hcount, bind_eq_ok]
    constructor
    · rintro ⟨s, hs, h⟩
      obtain ⟨hreadable, rfl⟩ := (hscan s).mp hs
      rw [foldl_read] at h
      obtain ⟨p, hpaths, h⟩ := bind_eq_ok.mp h
      obtain ⟨hfound, rfl⟩ := (hsort _ _ _).mp hpaths
      cases hcwd : sys.getcwd with
      | none =>
          rw [hcwd] at h
          cases h
      | some cwd =>
          rw [hcwd] at h
          cases h
          rw [foldl_add]
          exact ⟨Nat.lt_of_succ_le (Nat.le_of_not_lt hcount), hreadable, hfound, hcwd, rfl, rfl, rfl⟩
    · intro h
      obtain ⟨flags, ⟨file, dir⟩, cwd⟩ := out
      obtain ⟨-, hreadable, hfound, hcwd, hflags, hfile, hdir⟩ := h
      obtain rfl : flags = flagsOf (letters argv) := hflags
      obtain rfl : file = (params argv).filter (isFile sys (flagsOf (letters argv))) := hfile
      obtain rfl : dir = (params argv).filter fun n => !isFile sys (flagsOf (letters argv)) n := hdir
      refine ⟨_, (hscan _).mpr ⟨hreadable, rfl⟩, ?_⟩
      rw [foldl_read]
      refine bind_eq_ok.mpr ⟨_, (hsort _ _ _).mpr ⟨hfound, rfl⟩, ?_⟩
      rw [hcwd, foldl_add]
      rfl

theorem main_flags {sys : System} {argv : List Bytes} {out : Accepted} (h : main sys argv = .ok out) :
    out.flags = flagsOf (letters argv) := (main_eq_ok.mp h).flags

/-! ### The bits of the flags -/

namespace Letter

/-- What the case of the letter sets in `longformat`. -/
def on : Letter → BitVec 64
  | g | l | o => Format.long.mask
  | n => Format.num.mask
  | _ => 0#64

/-- What it clears there. -/
def off : Letter → BitVec 64
  | g | G => Format.owner.mask
  | o => Format.group.mask
  | _ => 0#64

end Letter

theorem Flags.apply_options (f : Flags) (x : Letter) :
    (f.apply x).options = BitFlags.update f.options x.op 0#64 := by
  rw [BitFlags.update, BitFlags.clear_zero (by decide)]
  cases x <;> rfl

theorem Flags.apply_longformat (f : Flags) (x : Letter) :
    (f.apply x).longformat = BitFlags.update f.longformat x.on x.off := by
  have hset : ∀ x : BitVec 32, BitFlags.set x 0#64 = x := fun _ => BitFlags.set_zero (by decide)
  have hclear : ∀ x : BitVec 32, BitFlags.clear x 0#64 = x := fun _ => BitFlags.clear_zero (by decide)
  cases x
  case g => rfl
  case o => rfl
  case l => exact (hclear _).symm
  case n => exact (hclear _).symm
  case G => exact congrArg (BitFlags.clear · Format.owner.mask) (hset _).symm
  all_goals exact ((hclear _).trans (hset _)).symm

theorem separate_op : BitFlags.Separate Letter.op fun _ => 0#64 :=
  fun _ _ _ _ => BitVec.getLsbD_zero

theorem separate_format : BitFlags.Separate Letter.on Letter.off := by
  refine @BitFlags.separate_of_mask _ (Format.long.mask ||| Format.num.mask) _ _ _ ?_ ?_
  · intro x
    cases x <;> rfl
  · intro x
    cases x <;> rfl

theorem flagsOf_options (ls : List Letter) :
    (flagsOf ls).options = ls.foldl (fun x y => BitFlags.update x y.op 0#64) 0 :=
  (List.foldl_hom Flags.options fun f x => (f.apply_options x).symm).symm

theorem flagsOf_longformat (ls : List Letter) :
    (flagsOf ls).longformat = ls.foldl (fun x y => BitFlags.update x y.on y.off) 6 :=
  (List.foldl_hom Flags.longformat fun f x => (f.apply_longformat x).symm).symm

/-- **The flags depend on the set of letters only.** -/
theorem flagsOf_congr {ls ls' : List Letter} (h : ∀ x, x ∈ ls ↔ x ∈ ls') : flagsOf ls = flagsOf ls' := by
  have hoptions : (flagsOf ls).options = (flagsOf ls').options := by
    rw [flagsOf_options, flagsOf_options]
    exact BitFlags.foldl_congr (by decide) separate_op h 0
  have hlong : (flagsOf ls).longformat = (flagsOf ls').longformat := by
    rw [flagsOf_longformat, flagsOf_longformat]
    exact BitFlags.foldl_congr (by decide) separate_format h 6
  calc flagsOf ls = ⟨(flagsOf ls).options, (flagsOf ls).longformat⟩ := rfl
    _ = flagsOf ls' := by rw [hoptions, hlong]

theorem Letter.bit_injective : Function.Injective Letter.bit := by
  intro x y h
  cases x <;> cases y <;> first | rfl | cases h

theorem Letter.bit_lt (x : Letter) : x.bit < 32 := by
  cases x <;> decide

/-- The bit of a letter is set if it was given. -/
theorem has_flagsOf (ls : List Letter) (x : Letter) : (flagsOf ls).has x = decide (x ∈ ls) := by
  have hbit : ∀ y : Letter, y.op.getLsbD x.bit = decide (x = y) := by
    intro y
    have hlt : x.bit < 64 := Nat.lt_trans x.bit_lt (by decide)
    rw [Letter.op, ← BitVec.twoPow_eq, BitVec.getLsbD_twoPow, Bool.eq_iff_iff, Bool.and_eq_true,
      decide_eq_true_iff, decide_eq_true_iff, decide_eq_true_iff]
    exact ⟨fun h => Letter.bit_injective h.2.symm, fun h => h ▸ ⟨hlt, rfl⟩⟩
  rw [Flags.has, Letter.op, ← BitVec.twoPow_eq, BitFlags.test_twoPow (by decide) x.bit_lt, flagsOf_options,
    BitFlags.getLsbD_foldl (by decide) separate_op ls _ x.bit_lt]
  simp [hbit, List.any_eq]

namespace Format

/-- The letters that set the bit, and those that clear it. -/
def setBy : Format → List Letter
  | long => [.l, .g, .o]
  | num => [.n]
  | _ => []

def clearedBy : Format → List Letter
  | owner => [.g, .G]
  | group => [.o]
  | _ => []

theorem getLsbD_on (x : Letter) (y : Format) : x.on.getLsbD y.bit = decide (x ∈ y.setBy) := by
  cases y <;> cases x <;> rfl

theorem getLsbD_off (x : Letter) (y : Format) : x.off.getLsbD y.bit = decide (x ∈ y.clearedBy) := by
  cases y <;> cases x <;> rfl

end Format

/-- A bit of `longformat` is set if it was set at the start or by a letter, and no letter cleared it. -/
theorem shows_flagsOf (ls : List Letter) (y : Format) :
    (flagsOf ls).shows y = true ↔
      (BitFlags.test 6#32 y.mask = true ∨ ∃ x ∈ y.setBy, x ∈ ls) ∧ ∀ x ∈ y.clearedBy, x ∉ ls := by
  have hlt : y.bit < 32 := by cases y <;> decide
  rw [Flags.shows, Format.mask, ← BitVec.twoPow_eq, BitFlags.test_twoPow (by decide) hlt,
    BitFlags.test_twoPow (by decide) hlt, flagsOf_longformat,
    BitFlags.getLsbD_foldl (by decide) separate_format ls _ hlt]
  simp [Format.getLsbD_on, Format.getLsbD_off, and_comm, imp_not_comm]

variable {ls : List Letter}

theorem long_iff : (flagsOf ls).shows .long = true ↔ .l ∈ ls ∨ .g ∈ ls ∨ .o ∈ ls := by
  have hinit : BitFlags.test 6#32 Format.long.mask = false := rfl
  rw [shows_flagsOf, hinit]
  simp [Format.setBy, Format.clearedBy]

theorem owner_iff : (flagsOf ls).shows .owner = false ↔ .g ∈ ls ∨ .G ∈ ls := by
  have hinit : BitFlags.test 6#32 Format.owner.mask = true := rfl
  rw [← Bool.not_eq_true, shows_flagsOf, hinit]
  simp only [Format.clearedBy, List.forall_mem_cons, List.not_mem_nil, true_or, true_and, not_and_or,
    not_not, false_imp_iff, implies_true, not_true_eq_false, or_false]

theorem group_iff : (flagsOf ls).shows .group = false ↔ .o ∈ ls := by
  have hinit : BitFlags.test 6#32 Format.group.mask = true := rfl
  rw [← Bool.not_eq_true, shows_flagsOf, hinit]
  simp [Format.clearedBy]

theorem num_iff : (flagsOf ls).shows .num = true ↔ .n ∈ ls := by
  have hinit : BitFlags.test 6#32 Format.num.mask = false := rfl
  rw [shows_flagsOf, hinit]
  simp [Format.setBy, Format.clearedBy]

/-- When `list_file` sorts as it does with `-l`. -/
theorem sortOp_eq_iff (o : Settings) :
    sortOp o = sortOp { o with l := true } ↔
      o.l = true ∨ o.S = true ∨ o.t = true ∨ o.c = false ∧ o.u = false := by
  obtain ⟨_, c, _, _, _, l, _, _, _, _, _, S, t, u⟩ := o
  cases S <;> cases t <;> cases l <;> cases c <;> cases u <;> simp [sortOp]

/-! ### The table of options -/

/-- What the table says of the settings when the letters in `ls` were given: `-g`, `-n` and `-o` are like
`-l`, without the owners, with the ids and without the groups; `-G` leaves out the groups. In the long format
`-c` and `-u` choose the order only together with `-t`. -/
structure FollowsTable (ls : List Letter) (o : Settings) : Prop where
  long : o.long = true ↔ .l ∈ ls ∨ .g ∈ ls ∨ .n ∈ ls ∨ .o ∈ ls
  owner : o.owner = false ↔ .g ∈ ls
  group : o.group = false ↔ .G ∈ ls ∨ .o ∈ ls
  num : o.num = true ↔ .n ∈ ls
  sort : .l ∈ ls ∨ .g ∈ ls ∨ .n ∈ ls ∨ .o ∈ ls → sortOp o = sortOp { o with l := true }
  byName : .l ∈ ls ∨ .g ∈ ls ∨ .n ∈ ls ∨ .o ∈ ls → .S ∉ ls → .t ∉ ls → sortOp o = .name

/-- The letters among which the slips of `main` and `list_file` make no difference: `-G` clears the owners,
`-n` does not turn the long format on, and only `-l` itself counts for the order. -/
structure Unaffected (ls : List Letter) : Prop where
  G : .G ∈ ls → .g ∈ ls ∧ .o ∈ ls
  n : .n ∈ ls → .l ∈ ls ∨ .g ∈ ls ∨ .o ∈ ls
  sort : .g ∈ ls ∨ .n ∈ ls ∨ .o ∈ ls → .l ∈ ls ∨ .S ∈ ls ∨ .t ∈ ls ∨ .c ∉ ls ∧ .u ∉ ls

theorem followsTable_flagsOf (ls : List Letter) :
    FollowsTable ls (flagsOf ls).settings ↔ Unaffected ls := by
  have hsort : sortOp (flagsOf ls).settings = sortOp { (flagsOf ls).settings with l := true } ↔
      .l ∈ ls ∨ .S ∈ ls ∨ .t ∈ ls ∨ .c ∉ ls ∧ .u ∉ ls := by
    rw [sortOp_eq_iff]
    simp only [Flags.settings, has_flagsOf, decide_eq_true_iff, decide_eq_false_iff_not]
  constructor
  · rintro ⟨hlong, howner, hgroup, -, horder, -⟩
    have hlong := long_iff.symm.trans hlong
    have howner := owner_iff.symm.trans howner
    have hgroup := group_iff.symm.trans hgroup
    rw [hsort] at horder
    constructor
    case G => grind
    case n => grind
    case sort => grind
  · rintro ⟨hG, hn, horder⟩
    have hsame : .l ∈ ls ∨ .g ∈ ls ∨ .n ∈ ls ∨ .o ∈ ls →
        sortOp (flagsOf ls).settings = sortOp { (flagsOf ls).settings with l := true } := by
      rw [hsort]
      grind
    constructor
    case long =>
        refine long_iff.trans ?_
        grind
    case owner =>
        refine owner_iff.trans ?_
        grind
    case group =>
        refine group_iff.trans ?_
        grind
    case num => exact num_iff
    case sort => exact hsame
    case byName =>
        intro hany hS ht
        rw [hsame hany]
        simp [sortOp, Flags.settings, has_flagsOf, hS, ht]

/-- What is asked of the arguments in `argv`, from which `main` went on with `out`: no other arguments with
the same letters give other flags, and the settings are those of the table. -/
structure Parsed (argv : List Bytes) (out : Accepted) : Prop where
  same : ∀ sys' argv' out', main sys' argv' = .ok out' → (∀ x, x ∈ letters argv' ↔ x ∈ letters argv) →
    out'.flags = out.flags
  table : FollowsTable (letters argv) out.flags.settings

/-- **Where `myls` follows its table of options.** -/
theorem parsed_iff {sys : System} {argv : List Bytes} {out : Accepted} (h : main sys argv = .ok out) :
    Parsed argv out ↔ Unaffected (letters argv) := by
  have hflags := main_flags h
  constructor
  · intro hparsed
    have htable := hparsed.table
    rw [hflags, followsTable_flagsOf] at htable
    exact htable
  · intro hun
    refine ⟨fun sys' argv' out' h' hsame => ?_, ?_⟩
    · rw [main_flags h', hflags]
      exact flagsOf_congr hsame
    · rw [hflags, followsTable_flagsOf]
      exact hun

/-- Every path is a directory. -/
def sampleSystem : System where
  lstat := fun name => some { farStat name with mode := 0o040755 }
  getcwd := some (ascii "/")

/-- `myls -gotc -n -G` sorts by the time of the change, as with `-l`. -/
theorem parsed_gotc :
    Parsed [ascii "-gotc", ascii "-n", ascii "-G"]
      ⟨flagsOf [.g, .o, .t, .c, .n, .G], ⟨[], [ascii "./"]⟩, ascii "/"⟩ := by
  have hun : Unaffected (letters [ascii "-gotc", ascii "-n", ascii "-G"]) :=
    ⟨by decide, by decide, by decide⟩
  exact (@parsed_iff sampleSystem _ _ rfl).mpr hun

/-- `myls -lG` prints the groups and leaves out the owners. -/
theorem parsed_fails : ¬ ∀ sys argv out, main sys argv = .ok out → Parsed argv out := by
  intro h
  have hparsed := h sampleSystem [ascii "-lG"] ⟨flagsOf [.l, .G], ⟨[], [ascii "./"]⟩, ascii "/"⟩ rfl
  have howner : (flagsOf [.l, .G]).shows .owner = false := owner_iff.mpr (by decide)
  exact absurd (hparsed.table.owner.mp howner) (by decide)

end SmallTrial.Listing

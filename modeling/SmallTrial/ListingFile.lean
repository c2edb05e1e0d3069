import SmallTrial.ListingModel
import SmallTrial.ListingOrder

/-! What `myls` prints for the names in a directory: `list_file` counts the blocks, sorts the names and
prints them with `info` and `list_single`. The filters for hidden names, the separators between the entries
and the total. -/

namespace SmallTrial.Listing

open Text Files

/-- `options`, where `one` is `OP_1`, and `longformat` -/
structure Settings extends Options where
  c : Bool
  F : Bool
  h : Bool
  i : Bool
  l : Bool
  m : Bool
  p : Bool
  Q : Bool
  r : Bool
  s : Bool
  S : Bool
  t : Bool
  u : Bool
  one : Bool
  long : Bool
  owner : Bool
  group : Bool
  num : Bool

/-- What the C library says of users, groups and times, and what `trans` prints for a size. Every id has an
entry: for one that has none `getpwuid` and `getgrgid` return `NULL`, which `list_attr` dereferences. -/
structure Library where
  pwName : UInt32 → Bytes
  grName : UInt32 → Bytes
  ctime : Int64 → Bytes
  trans : Int64 → Bytes

/-- The type of a file, by the macros `S_ISDIR` and so on. -/
inductive FileType where
  | dir
  | link
  | regular
  | char
  | block
  | fifo
  | socket
  deriving DecidableEq

def Stat.fileType (st : Stat) : Option FileType :=
  let type := st.mode &&& 0o170000
  if type = 0o040000 then some .dir
  else if type = 0o120000 then some .link
  else if type = 0o100000 then some .regular
  else if type = 0o020000 then some .char
  else if type = 0o060000 then some .block
  else if type = 0o010000 then some .fifo
  else if type = 0o140000 then some .socket
  else none

/-- `S_ISDIR(fstat.st_mode)` -/
def Stat.isDir (st : Stat) : Bool := st.fileType = some .dir

/-- `putchar( fstat.st_mode & bit ? c : '-' )` -/
def Stat.permission (st : Stat) (bit : UInt32) (c : UInt8) : UInt8 :=
  if st.mode &&& bit ≠ 0 then c else 45

/-! ### The entries -/

/-- The letter for the type in the long format. -/
def FileType.letter : FileType → Bytes
  | .dir => ascii "d"
  | .link => ascii "l"
  | .regular => ascii "-"
  | .char => ascii "c"
  | .block => ascii "b"
  | .fifo => ascii "f"
  | .socket => ascii "s"

/-- `list_attr` -/
def listAttr (lib : Library) (o : Settings) (st : Stat) : Bytes :=
  let type := (st.fileType.map FileType.letter).getD []
  let permissions := [st.permission 0o400 114, st.permission 0o200 119, st.permission 0o100 120,
    st.permission 0o040 114, st.permission 0o020 119, st.permission 0o010 120,
    st.permission 0o004 114, st.permission 0o002 119, st.permission 0o001 120]
  let links := (decimal st.nlink.toInt64.toInt32.toInt).leftpad 2 32
  let id (text : Bytes) := text.rightpad 6 32 ++ ascii " "
  let owner := if o.owner then id (if o.num then decimal st.uid.toNat else lib.pwName st.uid) else []
  let group := if o.group then id (if o.num then decimal st.gid.toNat else lib.grName st.gid) else []
  let size := if o.h then lib.trans st.size else (decimal st.size.toInt).leftpad 6 32
  let time := lib.ctime (if o.c then st.ctime else if o.u then st.atime else st.mtime)
  type ++ permissions ++ ascii " " ++ links ++ ascii " " ++ owner ++ group ++ size ++ ascii " " ++
    -- without the newline and the day of the week
    ascii " " ++ time.dropLast.drop 4 ++ ascii " "

/-- The name, with `-Q`, `-F` and `-p`. -/
def nameText (o : Settings) (st : Stat) (name : Bytes) : Bytes :=
  let name := if o.Q then ascii "\"" ++ name ++ ascii "\"" else name
  let colored (color : String) := ascii color ++ name ++ ascii "\x1b[0m"
  let indicator (on : Bool) (c : String) := if on then ascii c else []
  match st.fileType with
  | some .dir => colored "\x1b[1;36m" ++ indicator (o.F || o.p) "/"
  | some .link => colored "\x1b[1;35m" ++ indicator o.F "@"
  | some .socket => colored "\x1b[1;34m" ++ indicator o.F "="
  | some .fifo => name ++ indicator o.F "|"
  | _ =>
      if st.mode &&& 0o100 ≠ 0 then colored "\x1b[1;32m" ++ indicator o.F "*"
      else name

/-- The names that `list_single` skips, and that `list_file` does not count. -/
def hidden (opts : Options) : Bytes → Bool
  | 46 :: rest =>
      if !opts.a then
        if !opts.A then true else decide (rest.head? = none ∨ rest.head? = some 46)
      else false
  | _ => false

/-- `list_single`: what it prints, or nothing if it returns 1. -/
def listSingle (lib : Library) (o : Settings) (stat : Bytes → Stat) (name : Bytes) : Option Bytes :=
  if hidden o.toOptions name then none
  else
    let st := stat name
    let inode := if o.i then (decimal st.ino.toNat).leftpad 8 32 ++ ascii " " else []
    let blocks := if o.s then (decimal st.blocks.toInt).leftpad 4 32 ++ ascii " " else []
    let attr := if o.long then listAttr lib o st else []
    some (inode ++ blocks ++ attr ++ nameText o st name)

/-- What `info` prints between two entries. -/
def separator (o : Settings) : Bytes :=
  if o.long || o.one then ascii "\n" else if o.m then ascii ", " else ascii " "

/-- `info` -/
def info (lib : Library) (o : Settings) (stat : Bytes → Stat) : List Bytes → Bytes
  | [] => []
  | name :: rest =>
      match listSingle lib o stat name with
      | some text =>
          -- `i == filenum-1`
          if rest = [] then text ++ info lib o stat rest
          else text ++ separator o ++ info lib o stat rest
      | none => info lib o stat rest

/-! ### A directory -/

/-- `totalblk += fstat.st_blocks`: the sum of 64 bits is narrowed to an `int`. -/
def addBlocks (totalblk : Int32) (blocks : Int64) : Int32 := (totalblk.toInt64 + blocks).toInt32

/-- The loop of `list_file` that counts the blocks. -/
def totalBlocks (o : Settings) (stat : Bytes → Stat) (names : List Bytes) : Int32 :=
  names.foldl (fun totalblk name =>
    if hidden o.toOptions name then totalblk else addBlocks totalblk (stat name).blocks) 0

/-- The key that `list_file` sorts by. -/
def sortOp (o : Settings) : Op :=
  if o.S then .field .size
  else if o.t then
    if o.c then .field .ctime else if o.u then .field .atime else .field .mtime
  else if !o.l then
    if o.c then .field .ctime else if o.u then .field .atime else .name
  else .name

/-- The names in the order in which `list_file` passes them to `info`. -/
def ordered (o : Settings) (stat : Bytes → Stat) (names : List Bytes) : List Bytes :=
  order o.r stat (sortOp o) names

/-- `list_file`; `op` says that it is called for a directory. -/
def listFile (lib : Library) (o : Settings) (stat : Bytes → Stat) (op : Bool) (names : List Bytes) :
    Bytes :=
  if names = [] then []
  else
    let total := ascii "total:  " ++ (decimal (totalBlocks o stat names).toInt).rightpad 6 32 ++ ascii "\n"
    (if op && o.long then total else []) ++ info lib o stat (ordered o stat names) ++ ascii "\n"

/-- The names for which the last loop of `list_content_dir` calls it again. -/
def entered (o : Settings) (stat : Bytes → Stat) (names : List Bytes) : List Bytes :=
  if o.R then (names.filter fun n => (stat n).isDir).filter fun n => !skipped o.toOptions n else []

end SmallTrial.Listing

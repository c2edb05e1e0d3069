import Mathlib.Data.List.Forall2
import SmallTrial.ChatServerRouting
import SmallTrial.TextStream

/-! What a handler makes of the bytes on its connection. The client sends most requests as one byte and
`SEND_MSG` as a `Message`; the handler takes what one `recv` returns for a `Message`, over the bytes that
its buffer holds. -/

namespace SmallTrial.Chat.Server

open Transition Text

/-! ### Requests -/

/-- The requests that the client sends as `char data`. -/
inductive Command where
  | disconnect
  | getTime
  | getName
  | getClientList
  deriving DecidableEq

def Command.type : Command → MsgType
  | .disconnect => .disconnect
  | .getTime => .getTime
  | .getName => .getName
  | .getClientList => .getClientList

/-- The values of `enum msgType` -/
def code : MsgType → UInt8
  | .connect => 1
  | .disconnect => 2
  | .getTime => 3
  | .getName => 4
  | .getClientList => 5
  | .sendMsg => 6
  | .repost => 7

/-- A text in `msg.data`, with its terminator. -/
abbrev DataText := {text : Bytes // 0 ∉ text ∧ text.length < dataSize}

inductive Request where
  | byte (c : Command)
  | message (text : DataText)

/-- A type as `long`. -/
def longOf (t : MsgType) : Bytes := code t :: List.replicate 7 0

/-- The bytes that decide which request the handler sees. -/
def Request.key : Request → Bytes
  | .byte c => longOf c.type
  | .message text => longOf .sendMsg ++ text.1 ++ [0]

/-- What the client sends. The bytes of `msg` behind its text are not initialised. -/
def Request.Encodes : Request → Bytes → Prop
  | .byte c, bytes => bytes = [code c.type]
  | .message text, bytes => (Request.message text).key <+: bytes ∧ bytes.length = messageSize

def Request.size : Request → Nat
  | .byte _ => 1
  | .message _ => messageSize

/-! ### The handler -/

/-- What the `switch` finds in `mes_rec`: a type that has a case, and for `SEND_MSG` the string in `data`. -/
inductive Received where
  | byte (c : Command)
  | message (text : Option Bytes)
  deriving DecidableEq

def Request.received : Request → Received
  | .byte c => .byte c
  | .message text => .message (some text.1)

def MesRec.received (mes : MesRec) : Option Received :=
  match mes.type with
  | some .disconnect => some (.byte .disconnect)
  | some .getTime => some (.byte .getTime)
  | some .getName => some (.byte .getName)
  | some .getClientList => some (.byte .getClientList)
  | some .sendMsg => some (.message mes.data.string)
  | _ => none

/-- `recv(conn_fd, &mes_rec, sizeof(mes_rec), 0)` -/
def MesRec.recv (mes : MesRec) (seg : Bytes) : MesRec := (mes.write 0 seg).getD mes

/-- What a handler finds besides its buffer when it has the mutex. -/
structure View where
  clients : List Entry
  env : Env

/-- The loop of `thread_handle` on the results of `recv`: what the `switch` finds, until `DISCONNECT` or until
a case ends the server. The buffer is cleared after each. -/
def handled (connFd : Nat) (mes : MesRec) : List Bytes → List View → List Received
  | seg :: segs, view :: views =>
      (mes.recv seg).received.toList ++
        match dispatch view.clients connFd (mes.recv seg) view.env with
        | some effect => if effect.closes then [] else handled connFd (.zero messageSize) segs views
        | none => []
  | _, _ => []

/-- The case of the `switch` neither throws an exception nor leaves a buffer. -/
def Received.Survives (view : View) : Received → Prop
  | .byte .getClientList => (appendLines view.clients view.env.mes).isSome
  | .byte _ => True
  | .message text => ∃ t, text = some t ∧ (parse t).isSome

/-- What the handler finds in a buffer of zeros. -/
def read (seg : Bytes) : Option Received := (MesRec.recv (.zero messageSize) seg).received

/-! ### The type -/

theorem ofLong_eq_some {x : Int} {t : MsgType} : MsgType.ofLong x = some t ↔ x = (code t).toNat := by
  constructor
  · intro h
    unfold MsgType.ofLong at h
    split at h <;> cases h <;> rfl
  · rintro rfl
    cases t <;> rfl

theorem type_eq_some {mes : MesRec} {t : MsgType} : mes.type = some t ↔ longOf t <+: mes.bytes := by
  have hlen : (mes.bytes.take 8).length = 8 := by
    rw [List.length_take, mes.length_eq]
    rfl
  have hlt := littleEndian_lt (mes.bytes.take 8)
  have hcode : littleEndian (longOf t) = (code t).toNat := by
    cases t <;> rfl
  have hcode_lt := (code t).toNat_lt
  rw [hlen] at hlt
  have hlong : mes.long = (code t).toNat ↔ littleEndian (mes.bytes.take 8) = littleEndian (longOf t) := by
    have hunfold : mes.long = (BitVec.ofNat 64 (littleEndian (mes.bytes.take 8))).toInt := rfl
    rw [hunfold, hcode, BitVec.toInt_ofNat', Int.bmod_def]
    split <;> omega
  rw [MesRec.type, ofLong_eq_some, hlong, List.prefix_iff_eq_take]
  constructor
  · intro h
    exact (littleEndian_inj (by rw [hlen]; rfl) h).symm
  · intro h
    have hlength : (longOf t).length = 8 := rfl
    rw [hlength] at h
    rw [← h]

theorem received_byte {mes : MesRec} {c : Command} :
    mes.received = some (.byte c) ↔ mes.type = some c.type := by
  unfold MesRec.received
  cases mes.type with
  | none => simp
  | some t => cases t <;> cases c <;> simp [Command.type]

theorem received_message {mes : MesRec} {text : Option Bytes} :
    mes.received = some (.message text) ↔ mes.type = some .sendMsg ∧ mes.data.string = text := by
  unfold MesRec.received
  cases mes.type with
  | none => simp
  | some t => cases t <;> simp

/-- The string in a buffer. -/
theorem string_eq_some {n : Nat} {b : Buffer n} {text : Bytes} (h0 : 0 ∉ text) :
    b.string = some text ↔ text ++ [0] <+: b.bytes := by
  constructor
  · intro h
    obtain ⟨i, hi, rfl⟩ := Option.map_eq_some_iff.mp h
    obtain ⟨hlt, hzero, -⟩ := List.idxOf?_eq_some_iff.mp hi
    have htake : b.bytes.take i ++ [0] = b.bytes.take (i + 1) := by
      rw [List.take_succ_eq_append_getElem hlt, hzero]
    rw [htake]
    exact List.take_prefix _ _
  · rintro ⟨rest, hrest⟩
    rw [Buffer.string, Buffer.strlen, ← hrest, List.append_assoc, List.singleton_append,
      idxOf?_append_cons h0, Option.map_some, List.take_left]

/-- The handler sees a request if its buffer starts with the bytes that decide it. -/
theorem received_iff {mes : MesRec} {r : Request} :
    mes.received = some r.received ↔ r.key <+: mes.bytes := by
  cases r with
  | byte c => rw [Request.received, received_byte, type_eq_some, Request.key]
  | message text =>
      obtain ⟨text, h0, hlen⟩ := text
      rw [Request.received, received_message, type_eq_some, string_eq_some h0, Request.key]
      have hdata : mes.data.bytes = (mes.bytes.drop 8).take dataSize := rfl
      have hlong : (longOf .sendMsg).length = 8 := rfl
      constructor
      · rintro ⟨⟨rest, hrest⟩, hprefix⟩
        rw [hdata, ← hrest, List.drop_left' hlong] at hprefix
        obtain ⟨rest', hrest'⟩ := hprefix.trans (List.take_prefix _ _)
        exact ⟨rest', by rw [← hrest, ← hrest']; simp only [List.append_assoc]⟩
      · rintro ⟨rest, hrest⟩
        have hbytes : longOf .sendMsg ++ (text ++ [0] ++ rest) = mes.bytes := by
          rw [← hrest]
          simp only [List.append_assoc]
        refine ⟨⟨_, hbytes⟩, ?_⟩
        rw [hdata, ← hbytes, List.drop_left' hlong, List.prefix_take_iff]
        refine ⟨List.prefix_append _ _, ?_⟩
        rw [List.length_append, List.length_singleton]
        omega

/-! ### Pieces in a buffer of zeros -/

theorem recv_bytes (mes : MesRec) {seg : Bytes} (h : seg.length ≤ messageSize) :
    (mes.recv seg).bytes = seg ++ mes.bytes.drop seg.length := by
  have hle : 0 + seg.length ≤ messageSize := by omega
  have hwrite : mes.write 0 seg = some (mes.recv seg) := by
    rw [MesRec.recv, Buffer.write, dif_pos hle, Option.getD_some]
  rw [Buffer.write_bytes hwrite, List.take_zero, List.nil_append, Nat.zero_add]

theorem recv_of_lt (mes : MesRec) {seg : Bytes} (h : messageSize < seg.length) : mes.recv seg = mes := by
  have hlt : ¬ 0 + seg.length ≤ messageSize := by omega
  rw [MesRec.recv, Buffer.write, dif_neg hlt, Option.getD_none]

theorem received_zero : MesRec.received (.zero messageSize) = none := by decide

theorem read_of_lt {seg : Bytes} (h : messageSize < seg.length) : read seg = none := by
  rw [read, recv_of_lt _ h, received_zero]

theorem recv_zero_bytes {seg : Bytes} (h : seg.length ≤ messageSize) :
    (MesRec.recv (.zero messageSize) seg).bytes = seg ++ List.replicate (messageSize - seg.length) 0 := by
  rw [recv_bytes _ h, Buffer.zero, List.drop_replicate]

/-- The bytes other than 0 that a request takes at least. -/
def Received.weight : Received → Nat
  | .byte _ | .message none => 1
  | .message (some text) => 1 + text.length

theorem code_ne_zero (t : MsgType) : code t ≠ 0 := by cases t <;> decide

theorem nonzeros_longOf (t : MsgType) : nonzeros (longOf t) = 1 := by cases t <;> rfl

theorem nonzeros_key (r : Request) : nonzeros r.key = r.received.weight := by
  cases r with
  | byte c => exact nonzeros_longOf c.type
  | message text =>
      rw [Request.key, nonzeros_append, nonzeros_append, nonzeros_longOf,
        nonzeros_of_not_mem text.2.1]
      rfl

theorem exists_type_of_received {mes : MesRec} {x : Received} (h : mes.received = some x) :
    ∃ t, longOf t <+: mes.bytes ∧ x.weight ≤ nonzeros mes.bytes := by
  cases x with
  | byte c =>
      have hkey : (Request.byte c).key <+: mes.bytes := received_iff.mp h
      refine ⟨c.type, hkey, ?_⟩
      have hle := nonzeros_mono hkey.sublist
      rw [nonzeros_key] at hle
      exact hle
  | message text =>
      obtain ⟨htype, hstring⟩ := received_message.mp h
      have hlong := type_eq_some.mp htype
      refine ⟨.sendMsg, hlong, ?_⟩
      cases text with
      | none =>
          have hle := nonzeros_mono hlong.sublist
          rw [nonzeros_longOf] at hle
          exact hle
      | some text =>
          have hkey : (Request.message ⟨text, Buffer.of_string_eq hstring⟩).key <+: mes.bytes :=
            received_iff.mp h
          have hle := nonzeros_mono hkey.sublist
          rw [nonzeros_key] at hle
          exact hle

theorem weight_le {s : Bytes} {x : Received} (h : read s = some x) : x.weight ≤ nonzeros s := by
  by_cases hs : s.length ≤ messageSize
  · obtain ⟨t, -, hle⟩ := exists_type_of_received h
    rw [recv_zero_bytes hs, nonzeros_append, nonzeros_replicate] at hle
    exact hle
  · rw [read_of_lt (Nat.lt_of_not_le hs)] at h
    cases h

/-- A piece that starts with 0 is not read as a request. -/
theorem read_zero_head {s : Bytes} (h : s.head? = some 0) : read s = none := by
  cases hread : read s with
  | none => rfl
  | some x =>
      by_cases hs : s.length ≤ messageSize
      · obtain ⟨t, hlong, -⟩ := exists_type_of_received hread
        rw [recv_zero_bytes hs] at hlong
        obtain ⟨s', rfl⟩ : ∃ s', s = 0 :: s' := by
          cases s with
          | nil => cases h
          | cons b s' => exact ⟨s', by rw [Option.some.inj h]⟩
        obtain ⟨rest, hrest⟩ := hlong
        exact absurd (List.cons.inj hrest).1 (code_ne_zero t)
      · rw [read_of_lt (Nat.lt_of_not_le hs)] at hread
        cases hread

/-! ### Buffers that the client has cleared -/

/-- What the client sends if its `msg` holds zeros behind the text. -/
def Request.cleared : Request → Bytes
  | .byte c => [code c.type]
  | .message text =>
      (Request.message text).key ++ List.replicate (messageSize - (Request.message text).key.length) 0

theorem key_length_le (r : Request) : r.key.length ≤ 262 := by
  cases r with
  | byte c =>
      have hlen : (Request.byte c).key.length = 8 := rfl
      omega
  | message text =>
      have hlen : text.1.length < 254 := text.2.2
      simp only [Request.key, longOf, List.length_append, List.length_cons, List.length_nil,
        List.length_replicate]
      omega

theorem cleared_encodes (r : Request) : r.Encodes r.cleared := by
  cases r with
  | byte => rfl
  | message text =>
      have hle : (Request.message text).key.length ≤ messageSize :=
        Nat.le_trans (key_length_le _) (by decide)
      refine ⟨List.prefix_append _ _, ?_⟩
      rw [Request.cleared, List.length_append, List.length_replicate]
      omega

theorem length_of_encodes {r : Request} {b : Bytes} (h : r.Encodes b) : b.length = r.size := by
  cases r with
  | byte =>
      rw [h]
      rfl
  | message => exact h.2

theorem nonzeros_cleared (r : Request) : nonzeros r.cleared = r.received.weight := by
  cases r with
  | byte c => exact nonzeros_cons (code_ne_zero _) []
  | message text =>
      rw [Request.cleared, nonzeros_append, nonzeros_replicate, nonzeros_key]
      rfl

theorem cleared_head (r : Request) : ∃ t s, r.cleared = code t :: s := by
  cases r with
  | byte c => exact ⟨c.type, _, rfl⟩
  | message text => exact ⟨.sendMsg, _, rfl⟩

/-! ### Which pieces are decoded -/

/-- The first piece of a request holds its text. -/
def Request.First : Request → Nat → Prop
  | .byte _, l => l = 1
  | .message text, l => 0 < l ∧ l ≤ messageSize ∧ (text.1 = [] ∨ 8 + text.1.length ≤ l)

/-- The further pieces of a message, the next one from `start` on: none starts behind the terminator of
the text. -/
def Request.Later (r : Request) : Nat → List Nat → Prop
  | start, [] => start = r.size
  | start, l :: ls => 0 < l ∧ start < r.key.length ∧ r.Later (start + l) ls

/-- No piece holds bytes of two requests, and each request is decoded from its first piece. -/
inductive Decodes : List Request → List Nat → Prop where
  | nil : Decodes [] []
  | cons {r : Request} {l : Nat} {ls : List Nat} {rs : List Request} {lens : List Nat} :
      r.First l → r.Later l ls → Decodes rs lens → Decodes (r :: rs) (l :: ls ++ lens)

/-- The same for a handler that finds `views`: no request but the last one may end the server, and one that
does is only received up to its first piece. -/
inductive Handles : List Request → List Nat → List View → Prop where
  | nil {views : List View} : Handles [] [] views
  | last {r : Request} {l : Nat} {ls : List Nat} {view : View} {views : List View} :
      r.First l → ¬r.received.Survives view → Handles [r] (l :: ls) (view :: views)
  | cons {r : Request} {l : Nat} {ls : List Nat} {rs : List Request} {lens : List Nat} {view : View}
      {views : List View} : r.First l → r.Later l ls → r.received.Survives view →
      Handles rs lens (views.drop ls.length) → Handles (r :: rs) (l :: ls ++ lens) (view :: views)

/-- The bytes that `mes_rec` holds behind the first piece, and that the handler takes for bytes of the first
request, are 0. -/
def RestCleared (mes : MesRec) : List Request → List Nat → Prop
  | r :: _, l :: _ => ∀ i, l ≤ i → i < r.key.length → mes.bytes[i]? = some 0
  | _, _ => True

/-- Whatever the client's buffers hold behind the texts, the handler sees the requests that were sent. -/
def Meets (connFd : Nat) (mes : MesRec) (rs : List Request) (lens : List Nat) (views : List View) : Prop :=
  ∀ bs segs, List.Forall₂ Request.Encodes rs bs → segs.flatten = bs.flatten →
    segs.map List.length = lens → handled connFd mes segs views = rs.map Request.received

/-! ### The loop -/

theorem dispatch_isSome_iff {mes : MesRec} {x : Received} (h : mes.received = some x) (connFd : Nat)
    (view : View) : (dispatch view.clients connFd mes view.env).isSome ↔ x.Survives view := by
  cases x with
  | byte c =>
      rw [dispatch, received_byte.mp h]
      cases c with
      | disconnect => exact iff_of_true rfl trivial
      | getTime =>
          obtain ⟨effect, heffect⟩ := getTime_isSome view.clients connFd view.env
          exact iff_of_true (Option.isSome_iff_exists.mpr ⟨effect, heffect⟩) trivial
      | getName =>
          obtain ⟨effect, heffect⟩ := getName_isSome view.clients connFd view.env
          exact iff_of_true (Option.isSome_iff_exists.mpr ⟨effect, heffect⟩) trivial
      | getClientList =>
          have hlist : (getClientList view.clients connFd view.env).isSome ↔
              (appendLines view.clients view.env.mes).isSome := by
            rw [getClientList]
            cases appendLines view.clients view.env.mes with
            | none => exact Iff.rfl
            | some data => exact Iff.rfl
          exact hlist
  | message text =>
      obtain ⟨htype, rfl⟩ := received_message.mp h
      rw [dispatch, htype]
      exact sendMsg_isSome_iff

theorem dispatch_of_none {mes : MesRec} (h : mes.received = none) (clients : List Entry) (connFd : Nat)
    (env : Env) : dispatch clients connFd mes env = some ⟨clients, [], false⟩ := by
  unfold MesRec.received at h
  unfold dispatch
  cases htype : mes.type with
  | none => rfl
  | some type =>
      rw [htype] at h
      cases type with
      | disconnect | getTime | getName | getClientList | sendMsg => cases h
      | connect | repost => rfl

theorem handled_nil (connFd : Nat) (mes : MesRec) (views : List View) : handled connFd mes [] views = [] := by
  rw [handled]
  exact nofun

theorem handled_nil_right (connFd : Nat) (mes : MesRec) (segs : List Bytes) :
    handled connFd mes segs [] = [] := by
  cases segs <;> rfl

section Step

variable {connFd : Nat} {mes : MesRec} {seg : Bytes} {view : View}

theorem handled_none (segs : List Bytes) (views : List View) (h : (mes.recv seg).received = none) :
    handled connFd mes (seg :: segs) (view :: views) = handled connFd (.zero messageSize) segs views := by
  rw [handled, h, dispatch_of_none h]
  rfl

theorem handled_cons {x : Received} (segs : List Bytes) (views : List View)
    (h : (mes.recv seg).received = some x) :
    ∃ more, handled connFd mes (seg :: segs) (view :: views) = x :: more := by
  rw [handled, h]
  exact ⟨_, rfl⟩

theorem handled_last {x : Received} (segs : List Bytes) (views : List View)
    (h : (mes.recv seg).received = some x) (hx : x = .byte .disconnect ∨ ¬x.Survives view) :
    handled connFd mes (seg :: segs) (view :: views) = [x] := by
  rw [handled, h]
  rcases hx with rfl | hx
  · rw [dispatch_of_disconnect view.env (received_byte.mp h)]
    rfl
  · rw [← dispatch_isSome_iff h connFd, Option.not_isSome_iff_eq_none] at hx
    rw [hx]
    rfl

theorem handled_some {x : Received} (segs : List Bytes) (views : List View)
    (h : (mes.recv seg).received = some x) (hx : x ≠ .byte .disconnect) (hsurvives : x.Survives view) :
    handled connFd mes (seg :: segs) (view :: views) =
      x :: handled connFd (.zero messageSize) segs views := by
  obtain ⟨effect, heffect⟩ := Option.isSome_iff_exists.mp ((dispatch_isSome_iff h connFd view).mpr hsurvives)
  have htype : (mes.recv seg).type ≠ some .disconnect := by
    intro htype
    rw [received_byte (c := .disconnect) |>.mpr htype] at h
    exact hx (Option.some.inj h).symm
  obtain ⟨-, hcloses⟩ := (Served.of_dispatch heffect).keeps htype
  rw [handled, h, heffect]
  dsimp only
  rw [hcloses]
  rfl

end Step

/-- Pieces without a request are skipped. -/
theorem handled_unread {connFd : Nat} {ps : List Bytes} (segs : List Bytes) (views : List View)
    (h : ∀ p ∈ ps, read p = none) : handled connFd (.zero messageSize) (ps ++ segs) views =
      handled connFd (.zero messageSize) segs (views.drop ps.length) := by
  induction ps generalizing views with
  | nil => rfl
  | cons p ps ih =>
      cases views with
      | nil => rw [List.drop_nil, handled_nil_right, handled_nil_right]
      | cons view views =>
          rw [List.cons_append, handled_none _ _ (h p List.mem_cons_self),
            ih views fun q hq => h q (List.mem_cons_of_mem _ hq), List.length_cons, List.drop_succ_cons]

/-- A request in several pieces, the first of which is seen. -/
theorem handled_pieces {connFd : Nat} {mes : MesRec} {s : Bytes} {ps : List Bytes} {view : View} {x : Received}
    (segs : List Bytes) (views : List View) (h : (mes.recv s).received = some x) (hx : x ≠ .byte .disconnect)
    (hsurvives : x.Survives view) (hps : ∀ p ∈ ps, read p = none) :
    handled connFd mes (s :: ps ++ segs) (view :: views) =
      x :: handled connFd (.zero messageSize) segs (views.drop ps.length) := by
  rw [List.cons_append, handled_some _ _ h hx hsurvives, handled_unread _ _ hps]

/-! ### Pieces that are decoded -/

/-- Behind the first piece, the bytes that decide a request are 0. -/
theorem drop_key {r : Request} {l : Nat} (h : r.First l) : nonzeros (r.key.drop l) = 0 := by
  refine Nat.le_zero.mp ?_
  cases r with
  | byte c =>
      rw [Request.First] at h
      rw [h]
      exact Nat.le_refl 0
  | message text =>
      obtain ⟨hpos, -, htext⟩ := h
      rcases htext with htext | hle
      · have hkey : (Request.message text).key.drop 1 = List.replicate 8 0 := by
          rw [Request.key, htext]
          rfl
        have hmono := nonzeros_mono (List.drop_sublist_drop_left (Request.message text).key hpos)
        rwa [hkey, nonzeros_replicate] at hmono
      · have hkey : (Request.message text).key.drop (8 + text.1.length) = [0] := by
          rw [Request.key]
          exact List.drop_left' (by rw [List.length_append]; rfl)
        have hmono := nonzeros_mono (List.drop_sublist_drop_left (Request.message text).key hle)
        rwa [hkey] at hmono

theorem key_drop_getElem? {r : Request} {l i : Nat} (h : r.First l) (hl : l ≤ i)
    (hi : i < r.key.length) : r.key[i]? = some 0 := by
  have hmem : r.key[i] ∈ r.key.drop l := List.mem_drop_iff_getElem.mpr ⟨i - l, by omega, by
    congr 1
    omega⟩
  rw [List.getElem?_eq_getElem hi, nonzeros_eq_zero.mp (drop_key h) _ hmem]

/-- The first piece of a request is a part of the bytes that decide it, or holds all of them. -/
theorem first_prefix {r : Request} {b s : Bytes} (h : r.Encodes b) (hs : s <+: b) :
    s <+: r.key ∨ r.key <+: s := by
  cases r with
  | byte c =>
      rw [Request.Encodes] at h
      rw [h] at hs
      exact .inl (hs.trans ⟨List.replicate 7 0, rfl⟩)
  | message text => exact List.prefix_or_prefix_of_prefix hs h.1

/-- The first piece is seen as its request if the buffer is cleared behind it. -/
theorem received_first {r : Request} {b s : Bytes} (h : r.Encodes b) (hs : s <+: b)
    (hfirst : r.First s.length) (mes : MesRec) : (mes.recv s).received = some r.received ↔
      ∀ i, s.length ≤ i → i < r.key.length → mes.bytes[i]? = some 0 := by
  have hlen : s.length ≤ messageSize := by
    refine Nat.le_trans hs.length_le ?_
    rw [length_of_encodes h]
    cases r with
    | byte => exact Nat.le_add_left 1 263
    | message => exact Nat.le_refl _
  rw [received_iff, recv_bytes mes hlen, List.prefix_iff_getElem?]
  rcases first_prefix h hs with hkey | hkey
  · constructor
    · intro hall i hl hi
      have hi' := hall i hi
      rw [List.getElem?_append_right hl, List.getElem?_drop] at hi'
      have hzero := key_drop_getElem? hfirst hl hi
      rw [List.getElem?_eq_getElem hi] at hzero
      rw [hzero] at hi'
      rwa [show s.length + (i - s.length) = i by omega] at hi'
    · intro hall i hi
      by_cases hl : s.length ≤ i
      · have hzero := key_drop_getElem? hfirst hl hi
        rw [List.getElem?_eq_getElem hi] at hzero
        rw [List.getElem?_append_right hl, List.getElem?_drop, hzero,
          show s.length + (i - s.length) = i by omega]
        exact hall i hl hi
      · have hlt : i < s.length := by omega
        rw [List.getElem?_append_left hlt, List.getElem?_eq_getElem hlt, hkey.getElem hlt]
  · have hle := hkey.length_le
    constructor
    · intro _ i hl hi
      omega
    · intro _ i hi
      rw [List.getElem?_append_left (by omega)]
      exact List.prefix_iff_getElem?.mp hkey i hi

theorem later_sum {r : Request} {start : Nat} {ls : List Nat} (h : r.Later start ls) :
    start + ls.sum = r.size := by
  induction ls generalizing start with
  | nil => exact h
  | cons l ls ih =>
      have hsum := ih h.2.2
      rw [List.sum_cons]
      omega

/-- The further pieces of a request are not seen as requests. -/
theorem read_later {r : Request} {b pre : Bytes} {l : Nat} {ps : List Bytes} (h : r.Encodes b)
    (hb : pre ++ ps.flatten = b) (hfirst : r.First l) (hl : l ≤ pre.length)
    (hlater : r.Later pre.length (ps.map List.length)) : ∀ p ∈ ps, read p = none := by
  induction ps generalizing pre with
  | nil => exact List.forall_mem_nil _
  | cons p ps ih =>
      obtain ⟨hpos, hstart, hrest⟩ := hlater
      have hp : read p = none := by
        apply read_zero_head
        cases r with
        | byte c =>
            -- nothing follows the byte of a command
            rw [Request.First] at hfirst
            rw [Request.Encodes] at h
            have hlen := congrArg List.length (hb.trans h)
            rw [List.length_append, List.flatten_cons, List.length_append] at hlen
            rw [List.length_singleton] at hlen
            omega
        | message text =>
            have hzero := key_drop_getElem? hfirst hl hstart
            have hkey := List.prefix_iff_getElem?.mp h.1 _ hstart
            rw [List.getElem?_eq_getElem hstart] at hzero
            rw [hzero, ← hb, List.getElem?_append_right (Nat.le_refl _), Nat.sub_self,
              List.flatten_cons] at hkey
            obtain ⟨a, p', rfl⟩ := List.exists_cons_of_length_pos hpos
            exact hkey
      have htail := @ih (pre ++ p) (by rw [← hb, List.flatten_cons, List.append_assoc])
        (by rw [List.length_append]; omega) (by rw [List.length_append]; exact hrest)
      intro q hq
      rcases List.mem_cons.mp hq with rfl | hq
      · exact hp
      · exact htail q hq

/-- The client sends nothing after `DISCONNECT`. -/
def DisconnectLast (rs : List Request) : Prop := ∀ r ∈ rs.dropLast, r ≠ .byte .disconnect

theorem DisconnectLast.tail {r : Request} {rs : List Request} (h : DisconnectLast (r :: rs)) :
    DisconnectLast rs ∧ (r = .byte .disconnect → rs = []) := by
  cases rs with
  | nil => exact ⟨List.forall_mem_nil _, fun _ => rfl⟩
  | cons r' rs =>
      rw [DisconnectLast, List.dropLast_cons_cons] at h
      exact ⟨fun x hx => h x (List.mem_cons_of_mem _ hx), fun hr => absurd hr (h r List.mem_cons_self)⟩

theorem cleared_of_zero (rs : List Request) (lens : List Nat) :
    RestCleared (.zero messageSize) rs lens := by
  cases rs with
  | nil => exact trivial
  | cons r rs =>
      cases lens with
      | nil => exact trivial
      | cons l lens =>
          intro i _ hi
          have hle := key_length_le r
          have hlt : i < messageSize := Nat.lt_of_lt_of_le hi (Nat.le_trans hle (by decide))
          rw [Buffer.zero, List.getElem?_replicate, if_pos hlt]

theorem received_ne_disconnect {r : Request} (h : r ≠ .byte .disconnect) :
    r.received ≠ .byte .disconnect := by
  cases r with
  | byte c =>
      intro hc
      cases hc
      exact h rfl
  | message => exact fun hc => by cases hc

/-- The pieces of the first request. -/
theorem split_first {r : Request} {l : Nat} {ls lens : List Nat} {b : Bytes}
    {bs segs : List Bytes} (hlater : r.Later l ls) (hb : r.Encodes b)
    (hflatten : segs.flatten = (b :: bs).flatten) (hlens : segs.map List.length = l :: ls ++ lens) :
    ∃ s ps segs', segs = s :: ps ++ segs' ∧ s.length = l ∧ ps.map List.length = ls ∧
      segs'.map List.length = lens ∧ s ++ ps.flatten = b ∧ segs'.flatten = bs.flatten := by
  have hsum := later_sum hlater
  obtain ⟨ps, segs', rfl, hps, hsegs', hpsb, hrest⟩ := split_pieces hlens
    (by rw [hflatten, List.flatten_cons]) (by rw [length_of_encodes hb, List.sum_cons, hsum])
  obtain ⟨s, ps, rfl, hs, hps⟩ := List.map_eq_cons_iff.mp hps
  exact ⟨s, ps, segs', rfl, hs, hps, hsegs', hpsb, hrest⟩

/-- Such pieces are decoded. -/
theorem meets_of_handles {connFd : Nat} {rs : List Request} {lens : List Nat} {views : List View}
    (h : Handles rs lens views) (hlast : DisconnectLast rs) {mes : MesRec} (hmes : RestCleared mes rs lens) :
    Meets connFd mes rs lens views := by
  induction h generalizing mes with
  | nil =>
      intro bs segs hbs hflatten hlens
      rw [List.map_eq_nil_iff.mp hlens, handled_nil]
      rfl
  | @last r l ls view views hfirst hends =>
      intro bs segs hbs hflatten hlens
      cases hbs with
      | @cons _ b _ bs hb hbs =>
      cases hbs
      obtain ⟨s, ps, rfl, rfl, -⟩ := List.map_eq_cons_iff.mp hlens
      have hsb : s <+: b := ⟨ps.flatten, by simpa using hflatten⟩
      have hseen := (received_first hb hsb hfirst mes).mpr hmes
      exact handled_last ps views hseen (.inr hends)
  | @cons r l ls rs lens view views hfirst hlater hsurvives hhandles ih =>
      intro bs segs hbs hflatten hlens
      cases hbs with
      | @cons _ b _ bs hb hbs =>
      obtain ⟨s, ps, segs', rfl, rfl, rfl, hsegs', hsb, hrest⟩ := split_first hlater hb hflatten hlens
      have hseen := (received_first hb ⟨_, hsb⟩ hfirst mes).mpr hmes
      obtain ⟨htail, hnil⟩ := hlast.tail
      by_cases hr : r = .byte .disconnect
      · subst hr
        rw [hnil rfl, List.cons_append, handled_last _ _ hseen (.inl rfl)]
        rfl
      · have hunread := read_later hb hsb hfirst (Nat.le_refl _) hlater
        rw [List.length_map] at ih
        rw [handled_pieces _ _ hseen (received_ne_disconnect hr) hsurvives hunread,
          ih htail (cleared_of_zero _ _) bs segs' hbs hrest hsegs', List.map_cons]

/-- Whatever the handler finds besides its buffer, it decodes the first requests. -/
theorem handled_first {connFd : Nat} {rs : List Request} {lens : List Nat} (h : Decodes rs lens) {mes : MesRec}
    (hmes : RestCleared mes rs lens) {bs segs : List Bytes} (hbs : List.Forall₂ Request.Encodes rs bs)
    (hflatten : segs.flatten = bs.flatten) (hlens : segs.map List.length = lens) (views : List View) :
    handled connFd mes segs views <+: rs.map Request.received := by
  induction h generalizing mes bs segs views with
  | nil =>
      rw [List.map_eq_nil_iff.mp hlens, handled_nil]
      exact List.nil_prefix
  | @cons r l ls rs lens hfirst hlater hdecodes ih =>
      cases hbs with
      | @cons _ b _ bs hb hbs =>
      cases views with
      | nil =>
          rw [handled_nil_right]
          exact List.nil_prefix
      | cons view views =>
          obtain ⟨s, ps, segs', rfl, rfl, rfl, hsegs', hsb, hrest⟩ := split_first hlater hb hflatten hlens
          have hseen := (received_first hb ⟨_, hsb⟩ hfirst mes).mpr hmes
          rw [List.map_cons]
          by_cases hends : r.received = .byte .disconnect ∨ ¬r.received.Survives view
          · rw [List.cons_append, handled_last _ _ hseen hends, List.prefix_cons_inj]
            exact List.nil_prefix
          · obtain ⟨hr, hsurvives⟩ := not_or.mp hends
            have hunread := read_later hb hsb hfirst (Nat.le_refl _) hlater
            rw [handled_pieces _ _ hseen hr (not_not.mp hsurvives) hunread, List.prefix_cons_inj]
            exact ih (cleared_of_zero _ _) hbs hrest hsegs' _

/-! ### Pieces that are not decoded -/

theorem handled_prefix (connFd : Nat) (segs : List Bytes) (views : List View) :
    handled connFd (.zero messageSize) segs views <+: segs.filterMap read := by
  induction segs generalizing views with
  | nil =>
      rw [handled_nil]
      exact List.nil_prefix
  | cons s segs ih =>
      cases views with
      | nil =>
          rw [handled_nil_right]
          exact List.nil_prefix
      | cons view views =>
          cases hs : read s with
          | none =>
              rw [handled_none segs views hs, List.filterMap_cons_none hs]
              exact ih views
          | some x =>
              rw [List.filterMap_cons_some hs]
              by_cases hends : x = .byte .disconnect ∨ ¬x.Survives view
              · rw [handled_last segs views hs hends]
                exact List.prefix_append [_] _
              · obtain ⟨hx, hsurvives⟩ := not_or.mp hends
                rw [handled_some segs views hs hx (not_not.mp hsurvives), List.prefix_cons_inj]
                exact ih views

/-- A request as a record on the stream. -/
def Request.record (r : Request) : Received × Bytes := (r.received, r.cleared)

theorem map_record_fst (rs : List Request) :
    (rs.map Request.record).map Prod.fst = rs.map Request.received := by
  rw [List.map_map]
  rfl

theorem map_record_snd (rs : List Request) :
    (rs.map Request.record).map Prod.snd = rs.map Request.cleared := by
  rw [List.map_map]
  rfl

theorem weight_pos (x : Received) : 0 < x.weight := by
  cases x with
  | byte => exact Nat.one_pos
  | message text =>
      cases text with
      | none => exact Nat.one_pos
      | some text => exact Nat.add_pos_left Nat.one_pos _

theorem forall₂_cleared (rs : List Request) : List.Forall₂ Request.Encodes rs (rs.map Request.cleared) :=
  List.forall₂_map_right_iff.mpr (List.forall₂_same.mpr fun r _ => cleared_encodes r)

/-- If the handler sees the requests, there is nothing else on the stream. -/
theorem reads_of_handled {connFd : Nat} {rs : List Request} {segs : List Bytes} {views : List View}
    (hflatten : segs.flatten = (rs.map Request.cleared).flatten)
    (h : handled connFd (.zero messageSize) segs views = rs.map Request.received) :
    segs.filterMap read = rs.map Request.received := by
  obtain ⟨more, hmore⟩ := handled_prefix connFd segs views
  rw [h] at hmore
  have hle := sum_reads_le (fun _ _ => weight_le) segs
  have hsum : ((rs.map Request.received).map Received.weight).sum =
      nonzeros (rs.map Request.cleared).flatten := by
    rw [← map_record_fst, ← map_record_snd]
    refine sum_records fun x hx => ?_
    obtain ⟨r, -, rfl⟩ := List.mem_map.mp hx
    exact (nonzeros_cleared r).symm
  rw [← hmore, List.map_append, List.sum_append, hsum, hflatten] at hle
  cases more with
  | nil => rw [← hmore, List.append_nil]
  | cons x more =>
      have hpos := weight_pos x
      rw [List.map_cons, List.sum_cons] at hle
      omega

theorem grouped_of_handled {connFd : Nat} {rs : List Request} {segs : List Bytes} {views : List View}
    (hne : ∀ s ∈ segs, s ≠ []) (hflatten : segs.flatten = (rs.map Request.cleared).flatten)
    (h : handled connFd (.zero messageSize) segs views = rs.map Request.received) :
    Grouped read (rs.map Request.record) segs := by
  refine grouped_of_reads (fun _ _ => weight_le) (fun x hx => ?_) (fun x hx s hs => ?_) hne
    (by rw [map_record_snd, hflatten]) (by rw [map_record_fst, reads_of_handled hflatten h])
  · obtain ⟨r, -, rfl⟩ := List.mem_map.mp hx
    obtain ⟨t, s, hts⟩ := cleared_head r
    exact ⟨(nonzeros_cleared r).symm, code t, s, hts, code_ne_zero t⟩
  · intro h0
    rw [read_zero_head h0] at hs
    cases hs

theorem read_nil : read [] = none := by decide

/-- The piece that is seen as a request holds its text. -/
theorem first_of_read {r : Request} {s : Bytes} (hread : read s = some r.received)
    (hs : s <+: r.cleared) : r.First s.length := by
  have hpos : 0 < s.length := by
    cases s with
    | nil =>
        rw [read_nil] at hread
        cases hread
    | cons => exact Nat.succ_pos _
  have hle := hs.length_le
  rw [length_of_encodes (cleared_encodes r)] at hle
  cases r with
  | byte c => exact Nat.le_antisymm hle hpos
  | message text =>
      refine ⟨hpos, hle, ?_⟩
      by_cases htext : text.1 = []
      · exact .inl htext
      · right
        by_contra hlt
        -- the last byte of the text would be missing
        obtain ⟨init, last, hinit⟩ : ∃ init last, text.1 = init ++ [last] :=
          ⟨text.1.dropLast, text.1.getLast htext, (List.dropLast_concat_getLast htext).symm⟩
        have hlen : text.1.length = init.length + 1 := by
          rw [hinit, List.length_append, List.length_singleton]
        have hinit0 : 0 ∉ init := by
          intro h0
          exact text.2.1 (by rw [hinit]; exact List.mem_append_left _ h0)
        have hkey : (Request.message text).key = (longOf .sendMsg ++ init) ++ ([last] ++ [0]) := by
          rw [Request.key, hinit]
          simp only [List.append_assoc]
        have hshort : (longOf .sendMsg ++ init).length = 8 + init.length := by
          rw [List.length_append]
          rfl
        have hsinit : s <+: longOf .sendMsg ++ init := by
          rcases first_prefix (cleared_encodes _) hs with h | h
          · exact List.prefix_of_prefix_length_le h ⟨_, hkey.symm⟩ (by omega)
          · have hkl := h.length_le
            have htwo : ([last] ++ [0]).length = 2 := rfl
            rw [hkey, List.length_append, htwo] at hkl
            omega
        have hweight := weight_le hread
        have hmono := nonzeros_mono hsinit.sublist
        rw [nonzeros_append, nonzeros_longOf, nonzeros_of_not_mem hinit0] at hmono
        rw [Request.received, Received.weight] at hweight
        omega

theorem read_getTime {p : Bytes} (hp : nonzeros p = 0) (hlen : p.length < messageSize) :
    read (3 :: p) = some (.byte .getTime) := by
  have hzeros : p = List.replicate p.length 0 := List.eq_replicate_of_mem (nonzeros_eq_zero.mp hp)
  have hle : (3 :: p).length ≤ messageSize := hlen
  have hkey : (Request.byte .getTime).key <+: (MesRec.recv (.zero messageSize) (3 :: p)).bytes := by
    rw [recv_zero_bytes hle, hzeros, List.cons_append, ← List.replicate_add]
    refine List.cons_prefix_cons.mpr ⟨rfl, ?_⟩
    refine ⟨List.replicate (256 : Nat) 0, ?_⟩
    have hsize : messageSize = 264 := rfl
    rw [← List.replicate_add, List.length_cons, List.length_replicate]
    congr 1
    omega
  exact received_iff.mpr hkey

theorem read_none_of_zeros {p : Bytes} (hne : p ≠ []) (hp : nonzeros p = 0) : read p = none := by
  obtain ⟨b, p, rfl⟩ := List.exists_cons_of_ne_nil hne
  exact read_zero_head (by rw [List.head?_cons, nonzeros_eq_zero.mp hp b List.mem_cons_self])

/-- A piece that starts behind the terminator of a text is seen as a request if the client's buffer holds
the bytes of one there. -/
theorem start_of_meets {connFd : Nat} {r : Request} {rs : List Request} {first p : Bytes}
    {u v segs : List Bytes} {view : View} {views : List View}
    (hmeets : Meets connFd (.zero messageSize) (r :: rs)
      ((first :: (u ++ p :: v) ++ segs).map List.length) (view :: views))
    (hviews : views.length = (u ++ p :: v ++ segs).length) (hsurvives : r.received.Survives view)
    (hread : read first = some r.received) (hrest : ∀ q ∈ u ++ p :: v, q ≠ [] ∧ nonzeros q = 0)
    (hcleared : first ++ (u ++ p :: v).flatten = r.cleared)
    (hsegs : segs.flatten = (rs.map Request.cleared).flatten) :
    first.length + u.flatten.length < r.key.length := by
  by_contra hlt
  have hbs := forall₂_cleared rs
  have hfirst := first_of_read hread ⟨_, hcleared⟩
  have hpmem : p ∈ u ++ p :: v := List.mem_append_right _ List.mem_cons_self
  obtain ⟨hpne, hp0⟩ := hrest p hpmem
  obtain ⟨b, p, rfl⟩ := List.exists_cons_of_ne_nil hpne
  have hlen := congrArg List.length hcleared
  rw [length_of_encodes (cleared_encodes r), List.flatten_append, List.flatten_cons, List.length_append,
    List.length_append, List.length_append, List.length_cons] at hlen
  cases r with
  | byte c =>
      rw [Request.First] at hfirst
      rw [Request.size] at hlen
      omega
  | message text =>
      rw [Request.size] at hlen
      have hb0 : b = 0 := nonzeros_eq_zero.mp hp0 b List.mem_cons_self
      rw [hb0, nonzeros_zero_cons] at hp0
      -- the same message with the byte of GET_TIME at the start of the piece
      have hencodes : (Request.message text).Encodes (first ++ (u ++ (3 :: p) :: v).flatten) := by
        constructor
        · have hpre : first ++ u.flatten <+: (Request.message text).cleared := by
            rw [← hcleared, List.flatten_append, ← List.append_assoc]
            exact List.prefix_append _ _
          have hkey : (Request.message text).key <+: first ++ u.flatten := by
            refine List.prefix_of_prefix_length_le (cleared_encodes (.message text)).1 hpre ?_
            rw [List.length_append]
            omega
          rw [List.flatten_append, ← List.append_assoc]
          exact hkey.trans (List.prefix_append _ _)
        · simp only [List.flatten_append, List.flatten_cons, List.length_append, List.length_cons]
          omega
      have hplen : p.length < messageSize := by omega
      have hu : ∀ q ∈ u, read q = none := by
        intro q hq
        obtain ⟨hqne, hq0⟩ := hrest q (List.mem_append_left _ hq)
        exact read_none_of_zeros hqne hq0
      obtain ⟨view', views', hdrop⟩ : ∃ view' views', views.drop u.length = view' :: views' := by
        refine List.exists_cons_of_length_pos ?_
        rw [List.length_drop, hviews, List.length_append, List.length_append, List.length_cons]
        omega
      have hseen : ∀ piece : Bytes,
          handled connFd (.zero messageSize) (first :: (u ++ piece :: v) ++ segs) (view :: views) =
            .message (some text.1) ::
              handled connFd (.zero messageSize) (piece :: (v ++ segs)) (view' :: views') := by
        intro piece
        rw [List.cons_append, handled_some _ _ hread (by rintro ⟨⟩) hsurvives, List.append_assoc,
          handled_unread _ _ hu, hdrop, List.cons_append]
        rfl
      have hsent := hmeets _ (first :: (u ++ (b :: p) :: v) ++ segs)
        (.cons (cleared_encodes (.message text)) hbs)
        (by rw [List.flatten_append, List.flatten_cons, hcleared, hsegs, List.flatten_cons]) rfl
      have hother := hmeets _ (first :: (u ++ (3 :: p) :: v) ++ segs) (.cons hencodes hbs)
        (by rw [List.flatten_append, List.flatten_cons, hsegs, List.flatten_cons])
        (by simp only [List.map_append, List.map_cons, List.length_cons])
      rw [hseen, handled_none _ _ (read_zero_head (by rw [hb0]; rfl))] at hsent
      rw [hseen, handled_some _ _ (read_getTime hp0 hplen) (by decide) trivial, ← hsent] at hother
      exact absurd (congrArg List.length (List.cons.inj hother).2) (Nat.succ_ne_self _)

theorem handles_of_grouped {connFd : Nat} {rs : List Request} {segs : List Bytes} {views : List View}
    (hgrouped : Grouped read (rs.map Request.record) segs)
    (hflatten : segs.flatten = (rs.map Request.cleared).flatten) (hlast : DisconnectLast rs)
    (hviews : views.length = segs.length)
    (hmeets : Meets connFd (.zero messageSize) rs (segs.map List.length) views) :
    Handles rs (segs.map List.length) views := by
  induction rs generalizing segs views with
  | nil =>
      cases hgrouped
      exact .nil
  | cons r rs ih =>
      obtain ⟨first, rest, segs, rfl, hread, hzeros, hcleared, hgrouped⟩ := hgrouped.cons_inv
      replace hread : read first = some r.received := hread
      replace hcleared : first ++ rest.flatten = r.cleared := hcleared
      have hfirst := first_of_read hread ⟨_, hcleared⟩
      cases views with
      | nil => cases hviews
      | cons view views =>
      rw [List.cons_append, List.length_cons, List.length_cons, Nat.add_right_cancel_iff] at hviews
      by_cases hsurvives : r.received.Survives view
      · rw [List.cons_append, List.flatten_cons, List.flatten_append, ← List.append_assoc, hcleared,
          List.map_cons, List.flatten_cons] at hflatten
        have hsegs := List.append_cancel_left hflatten
        have hlater : r.Later first.length (rest.map List.length) := by
          refine pieces_of_starts rfl (fun _ _ _ hpos hstart hlater => ⟨hpos, hstart, hlater⟩)
            (fun u p v hrest => ?_) ?_
          · subst hrest
            exact ⟨(hzeros p (List.mem_append_right _ List.mem_cons_self)).1,
              start_of_meets hmeets hviews hsurvives hread hzeros hcleared hsegs⟩
          · rw [← List.length_append, hcleared, length_of_encodes (cleared_encodes r)]
        rw [List.map_append, List.map_cons]
        refine .cons hfirst hlater hsurvives ?_
        rw [List.length_map]
        obtain ⟨htail, hnil⟩ := hlast.tail
        by_cases hr : r = .byte .disconnect
        · obtain rfl := hnil hr
          cases hgrouped
          exact .nil
        · have hviews' : (views.drop rest.length).length = segs.length := by
            rw [List.length_drop, hviews, List.length_append]
            omega
          refine ih hgrouped hsegs htail hviews' fun bs segs' hbs hflatten' hlens => ?_
          have hall := hmeets (r.cleared :: bs) (first :: rest ++ segs') (.cons (cleared_encodes r) hbs)
            (by rw [List.cons_append, List.flatten_cons, List.flatten_append, ← List.append_assoc, hcleared,
              hflatten', List.flatten_cons])
            (by rw [List.map_append, List.map_append, hlens])
          have hunread : ∀ q ∈ rest, read q = none :=
            fun q hq => read_none_of_zeros (hzeros q hq).1 (hzeros q hq).2
          rw [handled_pieces _ _ hread (received_ne_disconnect hr) hsurvives hunread, List.map_cons] at hall
          exact (List.cons.inj hall).2
      · -- nothing is handled behind a request that ends the server
        have hall := hmeets _ (first :: rest ++ segs) (forall₂_cleared (r :: rs)) hflatten rfl
        rw [List.cons_append, handled_last _ _ hread (.inr hsurvives), List.map_cons] at hall
        obtain rfl : rs = [] := List.map_eq_nil_iff.mp (List.cons.inj hall).2.symm
        exact .last hfirst hsurvives

/-- The stream of a client that has cleared its buffers, in pieces of the given lengths. -/
theorem exists_cleared_pieces {rs : List Request} {lens : List Nat}
    (hsum : lens.sum = (rs.map Request.size).sum) : ∃ segs : List Bytes,
      segs.flatten = (rs.map Request.cleared).flatten ∧ segs.map List.length = lens := by
  refine exists_pieces ?_
  rw [hsum, List.length_flatten, List.map_map]
  exact congrArg List.sum (List.map_congr_left fun r _ => (length_of_encodes (cleared_encodes r)).symm)

theorem handles_of_meets {connFd : Nat} {rs : List Request} {lens : List Nat} {views : List View}
    (hpos : ∀ l ∈ lens, 0 < l) (hsum : lens.sum = (rs.map Request.size).sum)
    (hviews : views.length = lens.length) (hlast : DisconnectLast rs)
    (hmeets : Meets connFd (.zero messageSize) rs lens views) : Handles rs lens views := by
  obtain ⟨segs, hflatten, rfl⟩ := exists_cleared_pieces hsum
  have hne : ∀ s ∈ segs, s ≠ [] := by
    rintro _ hs rfl
    exact absurd (hpos 0 (List.mem_map.mpr ⟨[], hs, rfl⟩)) (Nat.lt_irrefl 0)
  have hhandled := hmeets _ segs (forall₂_cleared rs) hflatten rfl
  rw [List.length_map] at hviews
  exact handles_of_grouped (grouped_of_handled hne hflatten hhandled) hflatten hlast hviews hmeets

theorem received_of_handled {connFd : Nat} {mes : MesRec} {s : Bytes} {segs : List Bytes} {view : View}
    {views : List View} {x : Received} {xs : List Received}
    (h : handled connFd mes (s :: segs) (view :: views) = x :: xs)
    (hothers : handled connFd (.zero messageSize) segs views = xs) : (mes.recv s).received = some x := by
  cases hseen : (mes.recv s).received with
  | none =>
      rw [handled_none _ _ hseen, hothers] at h
      exact absurd (congrArg List.length h).symm (Nat.succ_ne_self _)
  | some y =>
      obtain ⟨more, hmore⟩ := @handled_cons connFd mes s view y segs views hseen
      rw [hmore] at h
      rw [(List.cons.inj h).1]

/-- Behind the first piece the client has sent zeros. -/
theorem read_rest {r : Request} {s : Bytes} {ps : List Bytes} (hfirst : r.First s.length)
    (hcleared : s ++ ps.flatten = r.cleared) : ∀ p ∈ ps, read p = none := by
  have hzeros : nonzeros ps.flatten = 0 := by
    have hdrop : ps.flatten = r.cleared.drop s.length := by rw [← hcleared, List.drop_left' rfl]
    have hkey := drop_key hfirst
    rw [hdrop]
    cases r with
    | byte c =>
        rw [Request.First] at hfirst
        rw [hfirst]
        rfl
    | message text =>
        rw [Request.cleared, List.drop_append, nonzeros_append, hkey, List.drop_replicate,
          nonzeros_replicate]
  intro p hp
  by_cases hne : p = []
  · rw [hne]
    exact read_nil
  · refine read_none_of_zeros hne (Nat.le_zero.mp ?_)
    rw [← hzeros]
    exact nonzeros_mono (List.sublist_flatten_of_mem hp)

/-- If the buffer is not cleared behind the first piece, the first request is not seen. -/
theorem cleared_of_meets {connFd : Nat} {rs : List Request} {lens : List Nat} {views : List View}
    (h : Handles rs lens views) (hsum : lens.sum = (rs.map Request.size).sum) (hlast : DisconnectLast rs)
    {mes : MesRec} (hmeets : Meets connFd mes rs lens views) : RestCleared mes rs lens := by
  obtain ⟨segs, hflatten, hlens⟩ := exists_cleared_pieces hsum
  have hsent := hmeets _ segs (forall₂_cleared rs) hflatten hlens
  cases h with
  | nil => exact trivial
  | @last r l ls view views hfirst hends =>
      obtain ⟨s, ps, rfl, rfl, rfl⟩ := List.map_eq_cons_iff.mp hlens
      have hsb : s ++ ps.flatten = r.cleared := by simpa using hflatten
      refine (received_first (cleared_encodes r) ⟨_, hsb⟩ hfirst mes).mp (received_of_handled hsent ?_)
      have hunread := @handled_unread connFd ps [] views (read_rest hfirst hsb)
      rwa [List.append_nil, handled_nil] at hunread
  | @cons r l ls rs lens view views hfirst hlater hsurvives hhandles =>
      rw [List.map_cons] at hflatten
      obtain ⟨s, ps, segs', rfl, rfl, rfl, hsegs', hsb, hrest⟩ :=
        split_first hlater (cleared_encodes r) hflatten hlens
      rw [List.length_map] at hhandles
      have hothers : handled connFd (.zero messageSize) (ps ++ segs') views = rs.map Request.received := by
        rw [handled_unread _ _ (read_rest hfirst hsb)]
        exact meets_of_handles hhandles hlast.tail.1 (cleared_of_zero _ _) _ segs' (forall₂_cleared rs)
          hrest hsegs'
      exact (received_first (cleared_encodes r) ⟨_, hsb⟩ hfirst mes).mp (received_of_handled hsent hothers)

/-! ### The handler in the server -/

/-- The results of `recv` of a connection, what its handler has found with the mutex, and what the `switch` has
found in the buffer. -/
def recvOf (c : Nat) (x : Stage State Event) : List Bytes :=
  match x.event with
  | .recv c' (some bytes) => if c' = c then [bytes] else []
  | _ => []

def viewOf (c : Nat) (x : Stage State Event) : List View :=
  match x.event with
  | .dispatch c' env _ _ => if c' = c then [⟨x.before.clients, env⟩] else []
  | _ => []

def switchOf (c : Nat) (x : Stage State Event) : List Received :=
  match x.event with
  | .dispatch c' _ _ _ =>
      if c' = c then ((x.before.handler c).bind fun h => h.mesRec.received).toList else []
  | _ => []

theorem recvOf_recv (s t : State) (c : Nat) (bytes : Bytes) :
    recvOf c ⟨s, .recv c (some bytes), t⟩ = [bytes] := if_pos rfl

theorem viewOf_dispatch (s t : State) (c : Nat) (env : Env) (type : Option MsgType)
    (sends : List (Nat × Message)) : viewOf c ⟨s, .dispatch c env type sends, t⟩ = [⟨s.clients, env⟩] :=
  if_pos rfl

theorem switchOf_dispatch {s : State} {c : Nat} {h : Handler} (hs : s.handler c = some h) (t : State)
    (env : Env) (type : Option MsgType) (sends : List (Nat × Message)) :
    switchOf c ⟨s, .dispatch c env type sends, t⟩ = h.mesRec.received.toList := by
  have hswitch : switchOf c ⟨s, .dispatch c env type sends, t⟩ =
      ((s.handler c).bind fun h => h.mesRec.received).toList := if_pos rfl
  rw [hswitch, hs, Option.bind_some]

/-- The handler has found `found` in the pieces `segs`, and finds the rest in the pieces that follow. -/
def Follows (h : Handler) (mes : MesRec) (segs : List Bytes) (views : List View) (found : List Received) :
    Prop :=
  match h.pc with
  | .receiving => ∀ more more', handled h.connFd mes (segs ++ more) (views ++ more') =
      found ++ handled h.connFd h.mesRec more more'
  | .dispatching => ∃ mes' seg, h.mesRec = mes'.recv seg ∧
      ∀ more more', handled h.connFd mes (segs ++ more) (views ++ more') =
        found ++ handled h.connFd mes' (seg :: more) more'
  | .finished => ∀ more more', handled h.connFd mes (segs ++ more) (views ++ more') = found

theorem recv_nil (mes : MesRec) : mes.recv [] = mes := by
  have hbytes : (mes.recv []).bytes = mes.bytes := recv_bytes mes (Nat.zero_le _)
  cases mes
  cases hrecv : MesRec.recv _ []
  rw [hrecv] at hbytes
  cases hbytes
  rfl

theorem Follows.recv {h : Handler} {mes : MesRec} {segs : List Bytes} {views : List View}
    {found : List Received} (H : Follows h mes segs views found) (hpc : h.pc = .receiving) (seg : Bytes) :
    Follows ⟨h.connFd, h.mesRec.recv seg, .dispatching⟩ mes (segs ++ [seg]) views found := by
  unfold Follows at H
  rw [hpc] at H
  refine ⟨h.mesRec, seg, rfl, fun more more' => ?_⟩
  rw [List.append_assoc, List.singleton_append]
  exact H (seg :: more) more'

theorem Follows.dispatch {h : Handler} {mes : MesRec} {segs : List Bytes} {views : List View}
    {found : List Received} (H : Follows h mes segs views found) (hpc : h.pc = .dispatching) {view : View}
    {effect : Effect} (hdispatch : Server.dispatch view.clients h.connFd h.mesRec view.env = some effect) :
    Follows ⟨h.connFd, .zero messageSize, if effect.closes then .finished else .receiving⟩ mes segs
      (views ++ [view]) (found ++ h.mesRec.received.toList) := by
  unfold Follows at H
  rw [hpc] at H
  obtain ⟨mes', seg, hmes, hall⟩ := H
  rw [hmes] at hdispatch ⊢
  -- the loop goes on unless the case leaves it
  have hnext : ∀ more more', handled h.connFd mes (segs ++ more) (views ++ [view] ++ more') =
      found ++ (mes'.recv seg).received.toList ++
        if effect.closes then [] else handled h.connFd (.zero messageSize) more more' := by
    intro more more'
    rw [List.append_assoc views, List.singleton_append, hall, handled, hdispatch, List.append_assoc]
  cases hcloses : effect.closes with
  | true =>
      rw [hcloses] at hnext
      intro more more'
      rw [hnext, if_pos rfl, List.append_nil]
  | false =>
      rw [hcloses] at hnext
      intro more more'
      rw [hnext, if_neg Bool.false_ne_true]

theorem of_conn_ne {c : Nat} {x : Stage State Event} (hc : c ≠ x.event.conn) :
    recvOf c x = [] ∧ viewOf c x = [] ∧ switchOf c x = [] := by
  obtain ⟨s, e, t⟩ := x
  cases e with
  | register | leave | abort => exact ⟨rfl, rfl, rfl⟩
  | recv c' result =>
      refine ⟨?_, rfl, rfl⟩
      cases result with
      | none => rfl
      | some bytes => exact if_neg (Ne.symm hc)
  | dispatch => exact ⟨rfl, if_neg (Ne.symm hc), if_neg (Ne.symm hc)⟩

/-- What the handler of connection `c` has found so far. -/
def Tracked (s : State) (c : Nat) (segs : List Bytes) (views : List View) (found : List Received) :
    Prop :=
  match s.handler c with
  | none => segs = [] ∧ views = [] ∧ found = []
  | some h => ∃ mes, Follows h mes segs views found

theorem Tracked.of_some {s : State} {c : Nat} {segs : List Bytes} {views : List View} {found : List Received} {h : Handler}
    (hs : s.handler c = some h) : Tracked s c segs views found ↔ ∃ mes, Follows h mes segs views found := by
  rw [Tracked, hs]

theorem Tracked.conn_step {s s' : State} {e : Event} {segs : List Bytes} {views : List View} {found : List Received}
    (H : Tracked s e.conn segs views found) (h : Step s e s') :
    Tracked s' e.conn (segs ++ recvOf e.conn ⟨s, e, s'⟩)
      (views ++ viewOf e.conn ⟨s, e, s'⟩) (found ++ switchOf e.conn ⟨s, e, s'⟩) := by
  cases h with
  | @register c e mesRec _ hnone _ =>
      have hs' : (s.register c e mesRec).handler c = some ⟨e.sock, mesRec, .receiving⟩ :=
        Function.update_self _ _ _
      unfold Tracked at H
      rw [Event.conn, hnone] at H
      obtain ⟨rfl, rfl, rfl⟩ := H
      exact (Tracked.of_some hs').mpr ⟨mesRec, fun _ _ => rfl⟩
  | leave =>
      rw [recvOf, viewOf, switchOf, List.append_nil, List.append_nil, List.append_nil]
      exact H
  | recvError =>
      rw [recvOf, viewOf, switchOf, List.append_nil, List.append_nil, List.append_nil]
      exact H
  | @recvEnd c h _ hs hpc _ =>
      have hs' : (s.setHandler c { h with pc := .dispatching }).handler c =
          some { h with pc := .dispatching } := Function.update_self _ _ _
      obtain ⟨mes, hfollows⟩ := (Tracked.of_some hs).mp H
      have hrecv := hfollows.recv hpc []
      rw [recv_nil] at hrecv
      rw [Event.conn, recvOf_recv, viewOf, switchOf, List.append_nil, List.append_nil]
      exact (Tracked.of_some hs').mpr ⟨mes, hrecv⟩
  | @recvBytes c h bytes mesRec _ hs hpc _ _ hwrite =>
      have hs' : (s.setHandler c ⟨h.connFd, mesRec, .dispatching⟩).handler c =
          some ⟨h.connFd, mesRec, .dispatching⟩ := Function.update_self _ _ _
      have hmes : h.mesRec.recv bytes = mesRec := by
        rw [MesRec.recv, hwrite, Option.getD_some]
      obtain ⟨mes, hfollows⟩ := (Tracked.of_some hs).mp H
      have hrecv := hfollows.recv hpc bytes
      rw [hmes] at hrecv
      rw [Event.conn, recvOf_recv, viewOf, switchOf, List.append_nil, List.append_nil]
      exact (Tracked.of_some hs').mpr ⟨mes, hrecv⟩
  | @dispatch c h env effect _ hs hpc hdispatch =>
      have hs' : (s.served c h effect).handler c =
          some ⟨h.connFd, .zero messageSize, if effect.closes then .finished else .receiving⟩ :=
        Function.update_self _ _ _
      obtain ⟨mes, hfollows⟩ := (Tracked.of_some hs).mp H
      have hnext := @Follows.dispatch _ _ _ _ _ hfollows hpc ⟨s.clients, env⟩ _ hdispatch
      rw [Event.conn, recvOf, viewOf_dispatch, switchOf_dispatch hs, List.append_nil]
      exact (Tracked.of_some hs').mpr ⟨mes, hnext⟩
  | abort =>
      rw [recvOf, viewOf, switchOf, List.append_nil, List.append_nil, List.append_nil]
      exact H

theorem Tracked.step {s s' : State} {e : Event} {c : Nat} {segs : List Bytes} {views : List View} {found : List Received}
    (H : Tracked s c segs views found) (h : Step s e s') :
    Tracked s' c (segs ++ recvOf c ⟨s, e, s'⟩) (views ++ viewOf c ⟨s, e, s'⟩)
      (found ++ switchOf c ⟨s, e, s'⟩) := by
  by_cases hc : c = e.conn
  · rw [hc] at H ⊢
    exact H.conn_step h
  · obtain ⟨hrecv, hview, hswitch⟩ := @of_conn_ne c ⟨s, e, s'⟩ hc
    rw [hrecv, hview, hswitch, List.append_nil, List.append_nil, List.append_nil, Tracked, (h.frame hc).1]
    exact H

/-- **The loop of a handler.** In every run of the server each handler finds in its pieces what `handled`
says, whatever the other connections do. -/
theorem handler_tracked {tr : List (Stage State Event)} {s : State} (h : Run (Recorded Step) .new tr s)
    (c : Nat) :
    Tracked s c (tr.flatMap (recvOf c)) (tr.flatMap (viewOf c)) (tr.flatMap (switchOf c)) := by
  induction h with
  | nil => exact ⟨rfl, rfl, rfl⟩
  | @snoc tr x s t _ hlast ih =>
      obtain ⟨before, e, after⟩ := x
      obtain ⟨rfl, hstep, rfl⟩ := hlast
      simp only [List.flatMap_append, List.flatMap_singleton]
      exact ih.step hstep

/-! ### Sessions -/

/-- The requests on one connection. -/
structure Session where
  requests : List Request
  disconnect_last : DisconnectLast requests

/-- The lengths of the results of `recv` on a connection, and what the handler finds after each when it has the
mutex, which it gets unless another connection has ended the server. -/
structure Split (rs : List Request) where
  lens : List Nat
  views : List View
  pos : ∀ l ∈ lens, 0 < l
  le : ∀ l ∈ lens, l ≤ messageSize
  sum : lens.sum = (rs.map Request.size).sum
  views_length : views.length = lens.length

/-- **When the handler decodes the requests.** Whatever the buffers of the client and of the handler hold at
first, the handler sees the requests that were sent if and only if each `recv` returns the bytes of one
request, or of one message up to its terminator and then the rest of it, no request but the last one ends the
server, and the first request does not depend on what the handler's buffer holds. Where the pieces are like
that, any given content of the handler's buffer does if and only if it is 0 where the first piece leaves it to
decide. -/
theorem requests_decoded_iff (session : Session) (split : Split session.requests) (connFd : Nat) :
    ((∀ mes, Meets connFd mes session.requests split.lens split.views) ↔
      Handles session.requests split.lens split.views ∧
        ∀ mes, RestCleared mes session.requests split.lens) ∧
    (Handles session.requests split.lens split.views → ∀ mes,
      Meets connFd mes session.requests split.lens split.views ↔
        RestCleared mes session.requests split.lens) := by
  have hgiven (h : Handles session.requests split.lens split.views) (mes : MesRec) :
      Meets connFd mes session.requests split.lens split.views ↔
        RestCleared mes session.requests split.lens :=
    ⟨cleared_of_meets h split.sum session.disconnect_last, meets_of_handles h session.disconnect_last⟩
  refine ⟨⟨fun hmeets => ?_, fun h mes => (hgiven h.1 mes).mpr (h.2 mes)⟩, hgiven⟩
  have hhandles :=
    handles_of_meets split.pos split.sum split.views_length session.disconnect_last (hmeets _)
  exact ⟨hhandles, fun mes => (hgiven hhandles mes).mp (hmeets mes)⟩

/-- A handler that is alone in the server. -/
def aloneView : View := ⟨[⟨4, ascii "127.0.0.1", 5000⟩], zeroEnv⟩

def toItself : Request := .message ⟨ascii "127.0.0.1:5000:hi", by decide⟩

/-- `::1` is not an address without a colon, so that no number follows. -/
def withoutPort : Request := .message ⟨ascii "::1:5000:hi", by decide⟩

def staleMes : MesRec := ⟨List.replicate messageSize 1, List.length_replicate⟩

/-- A `SEND_MSG` in one piece, one in two, the second of which starts with the terminator, and `GET_TIME`. -/
theorem requests_decoded_toItself : Meets 4 staleMes [toItself, toItself, .byte .getTime] [264, 25, 239, 1]
    (List.replicate 4 aloneView) := by
  have hlast : DisconnectLast [toItself, toItself, .byte .getTime] := by
    intro r hr
    obtain rfl : r = toItself := by simpa [List.dropLast] using hr
    exact nofun
  have hsurvives : toItself.received.Survives aloneView := ⟨_, rfl, by decide⟩
  have hwhole : toItself.First 264 ∧ toItself.Later 264 [] :=
    ⟨⟨by decide, Nat.le_refl _, .inr (by decide)⟩, rfl⟩
  have hsplit : toItself.First 25 ∧ toItself.Later 25 [239] :=
    ⟨⟨by decide, by decide, .inr (by decide)⟩, by decide, by decide, rfl⟩
  have hbyte : (Request.byte .getTime).First 1 ∧ (Request.byte .getTime).Later 1 [] := ⟨rfl, rfl⟩
  have hhandles : Handles [toItself, toItself, .byte .getTime] ([264] ++ ([25, 239] ++ ([1] ++ [])))
      (List.replicate 4 aloneView) :=
    .cons hwhole.1 hwhole.2 hsurvives (.cons hsplit.1 hsplit.2 hsurvives
      (.cons hbyte.1 hbyte.2 trivial .nil))
  have hcleared : RestCleared staleMes [toItself, toItself, .byte .getTime] [264, 25, 239, 1] := by
    intro i hle hlt
    have hkey := key_length_le toItself
    omega
  exact ((requests_decoded_iff ⟨_, hlast⟩ ⟨[264, 25, 239, 1], List.replicate 4 aloneView,
    by decide, by decide, rfl, rfl⟩ 4).2 hhandles staleMes).mpr hcleared

/-- Two requests that arrive together are not seen, nor is a first request of one byte in a buffer that holds
other bytes, nor a request behind a `SEND_MSG` without a port. -/
theorem requests_not_decoded :
    ¬ Meets 4 (.zero messageSize) [.byte .getTime, .byte .getName] [2] [aloneView] ∧
      ¬ Meets 4 staleMes [.byte .getTime] [1] [aloneView] ∧
      ¬ Meets 4 (.zero messageSize) [withoutPort, .byte .getTime] [264, 1] [aloneView, aloneView] := by
  refine ⟨fun h => ?_, fun h => ?_, fun h => ?_⟩
  · have hhandled := h [[3], [4]] [[3, 4]] (.cons rfl (.cons rfl .nil)) rfl rfl
    revert hhandled
    decide
  · have hhandled := h [[3]] [[3]] (.cons rfl .nil) rfl rfl
    revert hhandled
    decide
  · have hencodes := cleared_encodes withoutPort
    have hlength : withoutPort.cleared.length = 264 := length_of_encodes hencodes
    have hfirst : withoutPort.First withoutPort.cleared.length := by
      rw [hlength]
      exact ⟨by decide, Nat.le_refl _, .inr (by decide)⟩
    have hread := (received_first hencodes List.prefix_rfl hfirst (.zero messageSize)).mpr
      (cleared_of_zero [withoutPort] [withoutPort.cleared.length])
    have hthrows : ¬withoutPort.received.Survives aloneView := by
      rintro ⟨text, htext, hparse⟩
      cases htext
      revert hparse
      decide
    have hhandled := h [withoutPort.cleared, [3]] [withoutPort.cleared, [3]] (.cons hencodes (.cons rfl .nil))
      rfl (by rw [List.map_cons, hlength]; rfl)
    rw [handled_last _ _ hread (.inr hthrows)] at hhandled
    exact absurd (congrArg List.length hhandled) (by decide)

end SmallTrial.Chat.Server

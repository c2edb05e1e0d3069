import Mathlib.Data.List.Infix
import SmallTrial.ChatRequestDecoding

/-! What `helper_thread` of the client makes of the bytes on its connection. The server sends a greeting and
then a `Message` for each reply and each `REPOST`; the helper takes what its first `recv` returns for the
greeting, and what each later one returns for a `Message`. -/

namespace SmallTrial.Chat.Helper

open Server Text

/-! ### The messages of the server -/

/-- What the server sends after the greeting. The text of a `REPOST` has been copied with `strcpy`. -/
inductive Sent where
  | reply (type : {t : MsgType // t.isRequest}) (data : Buffer dataSize)
  | repost (text : DataText)

def Sent.type : Sent → MsgType
  | .reply type _ => type.1
  | .repost _ => .repost

/-- The bytes of `data` that matter. -/
def Sent.payload : Sent → Bytes
  | .reply _ data => data.bytes
  | .repost text => text.1 ++ [0]

def Sent.key (m : Sent) : Bytes := longOf m.type ++ m.payload

/-- What arrives. The padding and the bytes of `mes_fwd` behind the text of a `REPOST` are not
initialised. -/
def Sent.Encodes (m : Sent) (bytes : Bytes) : Prop := m.key <+: bytes ∧ bytes.length = messageSize

/-- `char str_hello[] = "hello"` -/
def strHello : Bytes := ascii "hello" ++ [0]

/-! ### The helper -/

/-- What the helper does with a message: it prints the string in `data`, or puts the message on the queue.
The padding that goes with `data` is left out. -/
inductive Output where
  | print (text : Option Bytes)
  | queue (type : Int) (data : Buffer dataSize)
  deriving DecidableEq

/-- `msgsnd(msgID, &msg, MAX_SIZE, 0)`, which refuses a type below 1. -/
def msgsnd (msg : MesRec) : Option Output :=
  if 0 < msg.long then some (.queue msg.long msg.data) else none

/-- `if (msg.type == REPOST)` -/
def output (msg : MesRec) : Option Output :=
  if msg.type = some .repost then some (.print msg.data.string) else msgsnd msg

/-- A turn of the loop. The buffer is cleared before `recv`, and stays so if `recv` fails. -/
def turn : Option Bytes → Option Output
  | none => output (.zero messageSize)
  | some bytes => output (MesRec.recv (.zero messageSize) bytes)

/-- `helper_thread` on the results of `recv`. The first one is printed as the greeting, which is left
out. -/
def helperThread : List (Option Bytes) → List Output
  | [] => []
  | _ :: results => results.filterMap turn

/-- What the helper does with a piece of the stream. -/
def read (seg : Bytes) : Option Output := turn (some seg)

theorem helperThread_some (greeting : Bytes) (segs : List Bytes) :
    helperThread ((greeting :: segs).map some) = segs.filterMap read := by
  rw [List.map_cons, helperThread, List.filterMap_map]
  rfl

/-- What the helper should do with a message. -/
def Sent.output : Sent → Output
  | .reply type data => .queue (code type.1).toNat data
  | .repost text => .print (some text.1)

/-! ### Messages in the buffer -/

theorem append_prefix_iff {a b l : Bytes} : a ++ b <+: l ↔ a <+: l ∧ b <+: l.drop a.length := by
  constructor
  · rintro ⟨rest, rfl⟩
    rw [List.append_assoc, List.drop_left]
    exact ⟨List.prefix_append _ _, List.prefix_append _ _⟩
  · rintro ⟨⟨l, rfl⟩, h⟩
    rw [List.drop_left] at h
    exact (List.prefix_append_right_inj a).mpr h

theorem data_bytes (mes : MesRec) : mes.data.bytes = (mes.bytes.drop 8).take dataSize := rfl

theorem long_eq {mes : MesRec} {t : MsgType} : mes.long = (code t).toNat ↔ longOf t <+: mes.bytes := by
  rw [← type_eq_some, MesRec.type, ofLong_eq_some]

theorem code_pos (t : MsgType) : 0 < ((code t).toNat : Int) := by cases t <;> decide

/-- The helper does what it should with a message if its buffer starts with the bytes that matter. -/
theorem output_iff {mes : MesRec} {m : Sent} : output mes = some m.output ↔ m.key <+: mes.bytes := by
  have hlong : (longOf m.type).length = 8 := rfl
  rw [Sent.key, append_prefix_iff, hlong]
  cases m with
  | reply type data =>
      obtain ⟨t, ht⟩ := type
      have hpayload : (data.bytes <+: mes.bytes.drop 8) ↔ mes.data = data := by
        rw [List.prefix_iff_eq_take, data.length_eq, ← data_bytes]
        constructor
        · intro h
          cases hdata : mes.data
          cases data
          rw [hdata] at h
          cases h
          rfl
        · rintro rfl
          rfl
      rw [Sent.payload, hpayload, Sent.type, Sent.output, ← long_eq, output, msgsnd]
      constructor
      · intro h
        split at h
        · cases h
        · split at h
          · obtain ⟨hl, hd⟩ := Output.queue.inj (Option.some.inj h)
            exact ⟨hl, hd⟩
          · cases h
      · rintro ⟨hl, rfl⟩
        have htype : mes.type ≠ some .repost := by
          intro hrepost
          have heq : some t = some .repost := (ofLong_eq_some.mpr hl).symm.trans hrepost
          rw [Option.some.inj heq] at ht
          cases ht
        have hpos := code_pos t
        rw [if_neg htype, if_pos (by rw [hl]; exact hpos), hl]
  | repost text =>
      have hpayload : (text.1 ++ [0] <+: mes.bytes.drop 8) ↔ mes.data.string = some text.1 := by
        have hlen : (text.1 ++ [0]).length ≤ dataSize := by
          rw [List.length_append, List.length_singleton]
          exact text.2.2
        rw [string_eq_some text.2.1, data_bytes, List.prefix_take_iff, and_iff_left hlen]
      rw [Sent.payload, hpayload, Sent.type, Sent.output, ← type_eq_some, output]
      constructor
      · intro h
        split at h
        · exact ⟨‹_›, Output.print.inj (Option.some.inj h)⟩
        · rw [msgsnd] at h
          split at h <;> cases h
      · rintro ⟨htype, hstring⟩
        rw [if_pos htype, hstring]

/-! ### Pieces in a cleared buffer -/

theorem long_of_zeros {mes : MesRec} (h : nonzeros (mes.bytes.take 8) = 0) : mes.long = 0 := by
  have hunfold : mes.long = (BitVec.ofNat 64 (littleEndian (mes.bytes.take 8))).toInt := rfl
  rw [hunfold, littleEndian_eq_zero.mpr h]
  rfl

theorem output_eq_none {mes : MesRec} : output mes = none ↔ mes.long ≤ 0 := by
  rw [output, msgsnd]
  split
  · rename_i htype
    have hlong := ofLong_eq_some.mp htype
    have hpos := code_pos .repost
    constructor
    · intro h
      cases h
    · intro h
      omega
  · split
    · constructor
      · intro h
        cases h
      · intro h
        omega
    · exact iff_of_true rfl (by omega)

/-- The bytes other than 0 that the helper needs for what it does. -/
def Output.weight : Output → Nat
  | .print none => 1
  | .print (some text) => 1 + text.length
  | .queue _ data => 1 + nonzeros data.bytes

theorem nonzeros_key (m : Sent) : nonzeros m.key = m.output.weight := by
  rw [Sent.key, nonzeros_append, nonzeros_longOf]
  cases m with
  | reply => rfl
  | repost text =>
      rw [Sent.payload, nonzeros_append, nonzeros_of_not_mem text.2.1]
      rfl

theorem weight_output_le {mes : MesRec} {x : Output} (h : output mes = some x) :
    x.weight ≤ nonzeros mes.bytes := by
  rw [output] at h
  split at h
  · rename_i htype
    obtain rfl := Option.some.inj h
    cases hstring : mes.data.string with
    | none =>
        have hle := nonzeros_mono (type_eq_some.mp htype).sublist
        rw [nonzeros_longOf] at hle
        exact hle
    | some text =>
        have hkey : (Sent.repost ⟨text, Buffer.of_string_eq hstring⟩).key <+: mes.bytes := by
          refine output_iff.mp ?_
          rw [output, if_pos htype, hstring]
          rfl
        have hle := nonzeros_mono hkey.sublist
        rw [nonzeros_key] at hle
        exact hle
  · rw [msgsnd] at h
    split at h
    · obtain rfl := Option.some.inj h
      have hsplit : nonzeros mes.bytes = nonzeros (mes.bytes.take 8) + nonzeros (mes.bytes.drop 8) := by
        rw [← nonzeros_append, List.take_append_drop]
      have htype : nonzeros (mes.bytes.take 8) ≠ 0 := by
        intro h0
        have hzero := long_of_zeros h0
        omega
      have hdata : nonzeros mes.data.bytes ≤ nonzeros (mes.bytes.drop 8) :=
        nonzeros_mono (List.take_sublist _ _)
      rw [Output.weight]
      omega
    · cases h

theorem output_zero : output (.zero messageSize) = none := by decide

theorem read_of_lt {seg : Bytes} (h : messageSize < seg.length) : read seg = none := by
  rw [read, turn, recv_of_lt _ h, output_zero]

theorem weight_le {s : Bytes} {x : Output} (h : read s = some x) : x.weight ≤ nonzeros s := by
  by_cases hs : s.length ≤ messageSize
  · have hle := weight_output_le h
    rw [recv_zero_bytes hs, nonzeros_append, nonzeros_replicate] at hle
    exact hle
  · rw [read_of_lt (Nat.lt_of_not_le hs)] at h
    cases h

/-- A piece whose type is 0 is dropped. -/
theorem read_zeros {s : Bytes} (h : nonzeros (s.take 8) = 0) : read s = none := by
  by_cases hs : s.length ≤ messageSize
  · refine output_eq_none.mpr (Int.le_of_eq (long_of_zeros ?_))
    rw [recv_zero_bytes hs, List.take_append, nonzeros_append, h, List.take_replicate, nonzeros_replicate]
  · exact read_of_lt (Nat.lt_of_not_le hs)

/-- The first piece of a message holds the bytes that matter, up to the last that is not 0. -/
def Sent.First (m : Sent) (l : Nat) : Prop := 0 < l ∧ nonzeros (m.key.drop l) = 0

/-- The further pieces of a message, the next one from `start` on: what each of them has in the place of the
type are bytes that matter. -/
def Sent.Later (m : Sent) : Nat → List Nat → Prop
  | start, [] => start = messageSize
  | start, l :: ls => 0 < l ∧ start + min l 8 ≤ m.key.length ∧ m.Later (start + l) ls

/-- No piece holds bytes of two messages, and each message is passed on with its first piece. -/
inductive Aligned : List Sent → List Nat → Prop where
  | nil : Aligned [] []
  | cons {m : Sent} {l : Nat} {ls : List Nat} {sent : List Sent} {lens : List Nat} :
      m.First l → m.Later l ls → Aligned sent lens → Aligned (m :: sent) (l :: ls ++ lens)

/-- The first `recv` returns the greeting, or all of it but its terminator, which then has a piece of its
own. -/
def Decodes (sent : List Sent) (greeting : Nat) (lens : List Nat) : Prop :=
  (greeting = 6 ∧ Aligned sent lens) ∨ (greeting = 5 ∧ ∃ rest, lens = 1 :: rest ∧ Aligned sent rest)

/-- Whatever the server's buffers hold behind the bytes that matter, the helper prints each `REPOST` and puts
each other message on the queue, in the order in which they were sent. -/
def Meets (sent : List Sent) (greeting : Nat) (lens : List Nat) : Prop :=
  ∀ bs first segs, List.Forall₂ Sent.Encodes sent bs → first ++ segs.flatten = strHello ++ bs.flatten →
    first.length = greeting → segs.map List.length = lens →
      helperThread ((first :: segs).map some) = sent.map Sent.output

/-! ### Pieces that are decoded -/

/-- The first piece of a message is passed on as the message. -/
theorem read_first {m : Sent} {b s : Bytes} (h : m.Encodes b) (hs : s <+: b) (hfirst : m.First s.length) :
    read s = some m.output := by
  have hlen : s.length ≤ messageSize := by
    rw [← h.2]
    exact hs.length_le
  refine output_iff.mpr ?_
  rw [recv_zero_bytes hlen]
  rcases List.prefix_or_prefix_of_prefix hs h.1 with hkey | hkey
  · -- the rest of the bytes that matter are 0, as the buffer is
    obtain ⟨rest, hrest⟩ := hkey
    have hzeros := hfirst.2
    rw [← hrest, List.drop_left] at hzeros
    have hle : rest.length ≤ messageSize - s.length := by
      have hkeylen := h.1.length_le
      rw [h.2, ← hrest, List.length_append] at hkeylen
      omega
    rw [← hrest, List.prefix_append_right_inj, List.prefix_replicate_iff]
    exact ⟨hle, List.eq_replicate_of_mem (nonzeros_eq_zero.mp hzeros)⟩
  · exact hkey.trans (List.prefix_append _ _)

/-- The further pieces of a message are dropped. -/
theorem read_later {m : Sent} {b pre : Bytes} {l : Nat} {ps : List Bytes} (h : m.Encodes b)
    (hb : pre ++ ps.flatten = b) (hfirst : m.First l) (hl : l ≤ pre.length)
    (hlater : m.Later pre.length (ps.map List.length)) : ∀ p ∈ ps, read p = none := by
  induction ps generalizing pre with
  | nil => exact List.forall_mem_nil _
  | cons p ps ih =>
      obtain ⟨-, hstart, hrest⟩ := hlater
      have hp : p.take 8 <+: m.key.drop pre.length := by
        have htake : p.take 8 <+: b.drop pre.length := by
          rw [← hb, List.drop_left, List.flatten_cons]
          exact (List.take_prefix 8 p).trans (List.prefix_append _ _)
        refine List.prefix_of_prefix_length_le htake (List.IsPrefix.drop h.1 pre.length) ?_
        rw [List.length_take, List.length_drop]
        omega
      have hzeros : nonzeros (p.take 8) = 0 := by
        have hle := nonzeros_mono (hp.sublist.trans (List.drop_sublist_drop_left m.key hl))
        rw [hfirst.2] at hle
        exact Nat.le_zero.mp hle
      have htail := @ih (pre ++ p) (by rw [← hb, List.flatten_cons, List.append_assoc])
        (by rw [List.length_append]; omega) (by rw [List.length_append]; exact hrest)
      intro q hq
      rcases List.mem_cons.mp hq with rfl | hq
      · exact read_zeros hzeros
      · exact htail q hq

theorem later_sum {m : Sent} {start : Nat} {ls : List Nat} (h : m.Later start ls) :
    start + ls.sum = messageSize := by
  induction ls generalizing start with
  | nil => exact h
  | cons l ls ih =>
      have hsum := ih h.2.2
      rw [List.sum_cons]
      omega

/-- The loop does what it should with messages in pieces of the given lengths. -/
def Reads (sent : List Sent) (lens : List Nat) : Prop :=
  ∀ bs segs : List Bytes, List.Forall₂ Sent.Encodes sent bs → segs.flatten = bs.flatten →
    segs.map List.length = lens → segs.filterMap read = sent.map Sent.output

theorem reads_of_aligned {sent : List Sent} {lens : List Nat} (h : Aligned sent lens) :
    Reads sent lens := by
  induction h with
  | nil =>
      intro bs segs _ _ hlens
      rw [List.map_eq_nil_iff.mp hlens]
      rfl
  | @cons m l ls sent lens hfirst hlater _ ih =>
      intro bs segs hbs hflatten hlens
      cases hbs with
      | @cons _ b _ bs hb hbs =>
      have hsum := later_sum hlater
      obtain ⟨ps, segs', rfl, hps, hsegs', hpsb, hrest⟩ := split_pieces hlens
        (by rw [hflatten, List.flatten_cons]) (by rw [hb.2, List.sum_cons, hsum])
      obtain ⟨s, ps, rfl, rfl, rfl⟩ := List.map_eq_cons_iff.mp hps
      have hnone : ps.filterMap read = [] :=
        List.filterMap_eq_nil_iff.mpr (read_later hb hpsb hfirst (Nat.le_refl _) hlater)
      rw [List.cons_append, List.filterMap_cons_some (read_first hb ⟨_, hpsb⟩ hfirst),
        List.filterMap_append, hnone, List.nil_append, ih _ _ hbs hrest hsegs', List.map_cons]

theorem meets_of_decodes {sent : List Sent} {greeting : Nat} {lens : List Nat}
    (h : Decodes sent greeting lens) : Meets sent greeting lens := by
  intro bs first segs hbs hflatten hlen hlens
  rw [helperThread_some]
  rcases h with ⟨rfl, haligned⟩ | ⟨rfl, rest, rfl, haligned⟩
  · have hrest := (List.append_inj hflatten hlen).2
    exact reads_of_aligned haligned _ _ hbs hrest hlens
  · obtain ⟨s, segs, rfl, hs, hmore⟩ := List.map_eq_cons_iff.mp hlens
    have hsplit : strHello = ascii "hello" ++ [0] := rfl
    rw [hsplit, List.append_assoc, List.flatten_cons] at hflatten
    have hrest := (List.append_inj hflatten hlen).2
    obtain ⟨rfl, hmessages⟩ := List.append_inj hrest hs
    rw [List.filterMap_cons_none (read_zeros rfl)]
    exact reads_of_aligned haligned _ _ hbs hmessages hmore

/-! ### Pieces that are not decoded -/

/-- What arrives if the buffers hold zeros behind the bytes that matter. -/
def Sent.cleared (m : Sent) : Bytes := m.key ++ List.replicate (messageSize - m.key.length) 0

theorem key_length_le (m : Sent) : m.key.length ≤ 262 := by
  have hlong : (longOf m.type).length = 8 := rfl
  rw [Sent.key, List.length_append, hlong]
  cases m with
  | reply type data =>
      rw [Sent.payload, data.length_eq]
      decide
  | repost text =>
      have hlen : text.1.length < 254 := text.2.2
      rw [Sent.payload, List.length_append, List.length_singleton]
      omega

theorem cleared_encodes (m : Sent) : m.Encodes m.cleared := by
  have hle := key_length_le m
  have hsize : messageSize = 264 := rfl
  refine ⟨List.prefix_append _ _, ?_⟩
  rw [Sent.cleared, List.length_append, List.length_replicate]
  omega

theorem forall₂_cleared (sent : List Sent) : List.Forall₂ Sent.Encodes sent (sent.map Sent.cleared) :=
  List.forall₂_map_right_iff.mpr (List.forall₂_same.mpr fun m _ => cleared_encodes m)

theorem nonzeros_cleared (m : Sent) : m.output.weight = nonzeros m.cleared := by
  rw [Sent.cleared, nonzeros_append, nonzeros_replicate, nonzeros_key]
  rfl

theorem cleared_head (m : Sent) : ∃ s, m.cleared = code m.type :: s := ⟨_, rfl⟩

/-- A message as a record on the stream. -/
def Sent.record (m : Sent) : Output × Bytes := (m.output, m.cleared)

theorem map_record_fst (sent : List Sent) :
    (sent.map Sent.record).map Prod.fst = sent.map Sent.output := by
  rw [List.map_map]
  rfl

theorem map_record_snd (sent : List Sent) :
    (sent.map Sent.record).map Prod.snd = sent.map Sent.cleared := by
  rw [List.map_map]
  rfl

theorem read_nil : read [] = none := read_zeros rfl

/-- What arrives from a server that has cleared its buffers, in pieces of the given lengths. -/
theorem exists_cleared_pieces {sent : List Sent} {greeting : Nat} {lens : List Nat}
    (hsum : greeting + lens.sum = strHello.length + messageSize * sent.length) :
    ∃ (first : Bytes) (segs : List Bytes),
      first ++ segs.flatten = strHello ++ (sent.map Sent.cleared).flatten ∧
      first.length = greeting ∧ segs.map List.length = lens := by
  have hlen : (strHello ++ (sent.map Sent.cleared).flatten).length =
      strHello.length + messageSize * sent.length := by
    have hsizes : sent.map (List.length ∘ Sent.cleared) = sent.map fun _ => messageSize :=
      List.map_congr_left fun m _ => (cleared_encodes m).2
    rw [List.length_append, List.length_flatten, List.map_map, hsizes, List.map_const',
      List.sum_replicate_nat, Nat.mul_comm]
  have hall : (greeting :: lens).sum = (strHello ++ (sent.map Sent.cleared).flatten).length :=
    hsum.trans hlen.symm
  obtain ⟨segs, hflatten, hlens⟩ := exists_pieces hall
  obtain ⟨first, segs, rfl, hfirst, hsegs⟩ := List.map_eq_cons_iff.mp hlens
  exact ⟨first, segs, hflatten, hfirst, hsegs⟩

/-! ### The messages of the server model -/

/-- A `Message` the server sends is one of those the helper should pass on. -/
def Sent.Is (m : Sent) (message : Message) : Prop :=
  message.type = m.type ∧ m.payload <+: message.data.bytes

theorem Sent.Is.encodes {m : Sent} {message : Message} (h : m.Is message) {padding : Bytes}
    (hpadding : padding.length = 2) : m.Encodes (longOf message.type ++ message.data.bytes ++ padding) := by
  have hlong : (longOf message.type).length = 8 := rfl
  constructor
  · rw [Sent.key, h.1, List.append_assoc, List.prefix_append_right_inj]
    exact h.2.trans (List.prefix_append _ _)
  · rw [List.length_append, List.length_append, message.data.length_eq, hpadding, hlong]
    rfl

theorem isRequest_sendMsg : MsgType.isRequest .sendMsg := rfl

/-- Every message that a dispatch sends is a reply or a `REPOST` with a text. -/
theorem sent_of_served {clients : List Entry} {connFd : Nat} {mesRec : MesRec} {effect : Effect}
    (h : Served clients connFd mesRec effect) : ∀ p ∈ effect.sends, ∃ m : Sent, m.Is p.2 := by
  cases h with
  | disconnect => exact List.forall_mem_nil _
  | @reply type data _ hrequest _ =>
      exact List.forall_mem_singleton.mpr ⟨.reply ⟨type, hrequest⟩ data, rfl, List.prefix_rfl⟩
  | @missed _ _ _ _ mes =>
      exact List.forall_mem_singleton.mpr ⟨.reply ⟨.sendMsg, isRequest_sendMsg⟩ mes, rfl, List.prefix_rfl⟩
  | @forwarded _ _ content _ mes fwd e _ _ _ _ _ hcontent =>
      have htext := Buffer.of_string_eq hcontent
      refine List.forall_mem_cons.mpr ⟨⟨.repost ⟨content, htext⟩, rfl, ?_⟩, ?_⟩
      · exact (string_eq_some htext.1).mp hcontent
      · exact List.forall_mem_singleton.mpr
          ⟨.reply ⟨.sendMsg, isRequest_sendMsg⟩ mes, rfl, List.prefix_rfl⟩
  | ignored => exact List.forall_mem_nil _

/-! ### Results -/

/-- The lengths of the results of `recv` on a connection on which the messages `sent` arrive. -/
structure Split (sent : List Sent) where
  greeting : Nat
  lens : List Nat
  greeting_pos : 0 < greeting
  greeting_le : greeting ≤ dataSize
  pos : ∀ l ∈ lens, 0 < l
  le : ∀ l ∈ lens, l ≤ messageSize
  sum : greeting + lens.sum = strHello.length + messageSize * sent.length

end SmallTrial.Chat.Helper

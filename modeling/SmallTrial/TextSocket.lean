import SmallTrial.TextBuffer

/-! A connection that cuts the bytes where it likes: a read returns some of what is left, up to the size of
the buffer, and a write takes some of what it is given. A text without zeros is found at the start of a
buffer of zeros just when the read returned all of it. -/

namespace Text

/-- How many bytes a read into `n` bytes returns and how many a write takes: at least one, if there are
any. -/
structure Socket where
  read : Bytes → Nat → Nat
  write : Bytes → Nat
  read_le : ∀ stream n, read stream n ≤ stream.length ∧ read stream n ≤ n
  read_pos : ∀ stream n, stream ≠ [] → 0 < n → 0 < read stream n
  write_le : ∀ bytes, write bytes ≤ bytes.length
  write_pos : ∀ bytes, bytes ≠ [] → 0 < write bytes

namespace Socket

variable (socket : Socket)

/-- What a read of `stream` into `n` bytes returns. -/
def receive (stream : Bytes) (n : Nat) : Bytes := stream.take (socket.read stream n)

/-- What a write takes of `bytes`. -/
def send (bytes : Bytes) : Bytes := bytes.take (socket.write bytes)

/-- `stream.read(&mut buffer)` with a buffer of zeros -/
def fill (stream : Bytes) (n : Nat) : Buffer n where
  bytes := socket.receive stream n ++ List.replicate (n - socket.read stream n) 0
  length_eq := by
    have hle := socket.read_le stream n
    rw [List.length_append, receive, List.length_take, List.length_replicate]
    omega

variable {socket}

theorem send_eq_self {bytes : Bytes} : socket.send bytes = bytes ↔ socket.write bytes = bytes.length := by
  have hle := socket.write_le bytes
  rw [send]
  constructor
  · intro h
    have hlen := congrArg List.length h
    rw [List.length_take] at hlen
    omega
  · intro h
    rw [h, List.take_length]

/-- What is read behind zeros is read in full. -/
theorem prefix_append_zeros {text bytes : Bytes} (h0 : 0 ∉ text) (k : Nat) :
    text <+: bytes ++ List.replicate k 0 ↔ text <+: bytes := by
  refine ⟨fun h => ?_, fun h => h.trans (List.prefix_append bytes _)⟩
  rcases Nat.le_total text.length bytes.length with hle | hle
  · exact List.prefix_of_prefix_length_le h (List.prefix_append bytes _) hle
  · -- a longer text goes on with the zeros
    obtain ⟨rest, rfl⟩ := List.prefix_of_prefix_length_le (List.prefix_append bytes _) h hle
    have hzeros : rest <+: List.replicate k 0 := (List.prefix_append_right_inj bytes).mp h
    cases rest with
    | nil => exact (List.append_nil bytes).symm ▸ List.prefix_rfl
    | cons b rest =>
        have hb : b = 0 := List.eq_of_mem_replicate (hzeros.subset List.mem_cons_self)
        exact absurd (List.mem_append_right bytes (hb ▸ List.mem_cons_self)) h0

/-- A text at the start of the buffer. -/
theorem prefix_fill {text : Bytes} (h0 : 0 ∉ text) (stream : Bytes) (n : Nat) :
    text <+: (socket.fill stream n).bytes ↔ text <+: stream ∧ text.length ≤ socket.read stream n := by
  rw [fill, prefix_append_zeros h0, receive, List.prefix_take_iff]

end Socket

end Text

import SmallTrial.TextSocket

/-! `handle_connection` of the web server: one read decides which page is sent, and one write sends it. The
answer is the one for the whole request if neither is cut short. -/

namespace SmallTrial.Web

open Text

/-- `get` -/
def get : Bytes := ascii "GET / HTTP/1.1\r\n"

/-- `sleep` -/
def sleep : Bytes := ascii "GET /sleep HTTP/1.1\r\n"

/-- The branches of `handle_connection`; with `sleep` it sleeps for five seconds. -/
inductive Branch where
  | get
  | sleep
  | notFound
  deriving DecidableEq

def branch (bytes : Bytes) : Branch :=
  if get.isPrefixOf bytes then .get
  else if sleep.isPrefixOf bytes then .sleep
  else .notFound

namespace Branch

def statusLine : Branch → Bytes
  | get => ascii "HTTP/1.1 200 OK\r\n\r\n"
  | sleep => ascii "HTTP/1.1 200 OK\r\n\r\n"
  | notFound => ascii "HTTP/1.1 404 NOT FOUND\r\n\r\n"

def filename : Branch → String
  | get => "test.html"
  | sleep => "test.html"
  | notFound => "404.html"

end Branch

/-- What `handle_connection` has done: the branch that it took and what the client is sent. -/
structure Handled where
  branch : Branch
  sent : Bytes
  deriving DecidableEq

/-- `handle_connection`, where `readToString` is `fs::read_to_string`; there is no result if it panics. -/
def handleConnection (readToString : String → Option Bytes) (socket : Socket) (stream : Bytes) :
    Option Handled := do
  let buffer := socket.fill stream 1024
  let branch := branch buffer.bytes
  let contents ← readToString branch.filename
  let response := branch.statusLine ++ contents
  return { branch := branch, sent := socket.send response }

/-! ### The branch for what was read -/

theorem branch_eq_get {bytes : Bytes} : branch bytes = .get ↔ get <+: bytes := by
  rw [← List.isPrefixOf_iff_prefix, branch]
  by_cases hget : get.isPrefixOf bytes = true
  · simp [hget]
  · rw [if_neg hget]
    split <;> simp [hget]

theorem branch_eq_sleep {bytes : Bytes} : branch bytes = .sleep ↔ sleep <+: bytes := by
  rw [← List.isPrefixOf_iff_prefix, branch]
  by_cases hget : get.isPrefixOf bytes = true
  · -- the two requests differ after `GET /`
    have hsleep : ¬sleep.isPrefixOf bytes = true := by
      intro hsleep
      have hprefix : get <+: sleep := List.prefix_of_prefix_length_le (List.isPrefixOf_iff_prefix.mp hget)
        (List.isPrefixOf_iff_prefix.mp hsleep) (by decide)
      exact absurd hprefix (by decide)
    simp [hget, hsleep]
  · rw [if_neg hget]
    split <;> simp_all

theorem branch_eq_branch {bytes bytes' : Bytes} :
    branch bytes = branch bytes' ↔
      (get <+: bytes ↔ get <+: bytes') ∧ (sleep <+: bytes ↔ sleep <+: bytes') := by
  rw [← branch_eq_get, ← branch_eq_get, ← branch_eq_sleep, ← branch_eq_sleep]
  cases branch bytes <;> cases branch bytes' <;> simp

variable {readToString : String → Option Bytes} {socket : Socket} {stream : Bytes}

/-- The branch is that of the whole stream if the read goes as far as the request that the stream starts
with. -/
theorem branch_fill : branch (socket.fill stream 1024).bytes = branch stream ↔
    (get <+: stream → get.length ≤ socket.read stream 1024) ∧
      (sleep <+: stream → sleep.length ≤ socket.read stream 1024) := by
  rw [branch_eq_branch, Socket.prefix_fill (by decide), Socket.prefix_fill (by decide),
    and_iff_left_iff_imp, and_iff_left_iff_imp]

/-! ### The answer -/

/-- The client is sent the page for the whole stream, all of it. -/
def Answers (readToString : String → Option Bytes) (socket : Socket) (stream : Bytes) : Prop :=
  ∃ contents, readToString (branch stream).filename = some contents ∧
    handleConnection readToString socket stream =
      some { branch := branch stream, sent := (branch stream).statusLine ++ contents }

/-- The read returns the whole first line, if it is one of the two, and the page can be read and is taken by
one write. -/
structure Whole (readToString : String → Option Bytes) (socket : Socket) (stream : Bytes) : Prop where
  get : get <+: stream → get.length ≤ socket.read stream 1024
  sleep : sleep <+: stream → sleep.length ≤ socket.read stream 1024
  page : ∃ contents, readToString (branch stream).filename = some contents ∧
    socket.write ((branch stream).statusLine ++ contents) = ((branch stream).statusLine ++ contents).length

theorem answers_of_whole (h : Whole readToString socket stream) : Answers readToString socket stream := by
  obtain ⟨contents, hcontents, hwrite⟩ := h.page
  refine ⟨contents, hcontents, ?_⟩
  have hbranch := branch_fill.mpr ⟨h.get, h.sleep⟩
  have hsent := Socket.send_eq_self.mpr hwrite
  simp only [handleConnection, hbranch, hcontents]
  exact congrArg (some ∘ Handled.mk (branch stream)) hsent

theorem whole_of_answers (h : Answers readToString socket stream) : Whole readToString socket stream := by
  obtain ⟨contents, hcontents, hhandled⟩ := h
  obtain ⟨contents', hcontents', hhandled⟩ := Option.bind_eq_some_iff.mp hhandled
  have hhandled := Option.some.inj hhandled
  have hbranch : branch (socket.fill stream 1024).bytes = branch stream := congrArg Handled.branch hhandled
  have hsent := congrArg Handled.sent hhandled
  rw [hbranch, hcontents] at hcontents'
  obtain rfl := Option.some.inj hcontents'
  obtain ⟨hget, hsleep⟩ := branch_fill.mp hbranch
  rw [hbranch] at hsent
  exact ⟨hget, hsleep, contents, hcontents, Socket.send_eq_self.mp hsent⟩

/-- **When the answer does not depend on how the bytes are cut.** -/
theorem answers_iff (readToString : String → Option Bytes) (stream : Bytes) :
    (∀ socket, Answers readToString socket stream ↔ Whole readToString socket stream) ∧
      ∀ socket socket', Whole readToString socket stream → Whole readToString socket' stream →
        handleConnection readToString socket stream = handleConnection readToString socket' stream := by
  refine ⟨fun socket => ⟨whole_of_answers, answers_of_whole⟩, fun socket socket' h h' => ?_⟩
  obtain ⟨contents, hcontents, hhandled⟩ := answers_of_whole h
  obtain ⟨contents', hcontents', hhandled'⟩ := answers_of_whole h'
  rw [hcontents] at hcontents'
  obtain rfl := Option.some.inj hcontents'
  exact hhandled.trans hhandled'.symm

/-- Reads return at most `k` bytes, and a write takes everything. -/
def upTo (k : Nat) (hk : 0 < k) : Socket where
  read := fun stream n => min k (min stream.length n)
  write := List.length
  read_le := by
    intro stream n
    omega
  read_pos := by
    intro stream n hstream hn
    have hpos := List.length_pos_iff.mpr hstream
    omega
  write_le := fun bytes => Nat.le_refl bytes.length
  write_pos := fun _ => List.length_pos_iff.mpr

def samplePages (filename : String) : Option Bytes :=
  if filename = "404.html" then some (ascii "Oops!") else some (ascii "Hello!")

/-- The first read returns the first line of a request for `/` and a part of the second. -/
theorem answers_upTo :
    Answers samplePages (upTo 20 (by decide)) (get ++ ascii "Host: localhost\r\n\r\n") := by
  refine ((answers_iff samplePages _).1 (upTo 20 (by decide))).mpr ⟨fun _ => by decide, fun hsleep => ?_, ?_⟩
  · exact absurd hsleep (by decide)
  · exact ⟨ascii "Hello!", by decide, rfl⟩

/-- A request for `/` that arrives byte by byte is answered by 404. -/
theorem answers_fails : ¬ ∀ socket stream, Answers samplePages socket stream := by
  intro h
  have hread := (whole_of_answers (h (upTo 1 Nat.one_pos) get)).get List.prefix_rfl
  exact absurd hread (by decide)

end SmallTrial.Web

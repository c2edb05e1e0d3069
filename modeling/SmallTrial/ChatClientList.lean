import SmallTrial.ChatRequestDecoding
import SmallTrial.ChatServerRouting
import SmallTrial.TextDecimal

/-! `GET_CLIENT_LIST`: the lines of the clients are appended in a buffer that is not initialised and not
terminated again. It holds the list exactly if the right bytes of it happened to be zero. -/

namespace SmallTrial.Chat.Server

open Transition Text

/-- The lines of the clients, in order. -/
def listing (clients : List Entry) : Bytes := clients.flatMap Entry.line

theorem listing_cons (e : Entry) (es : List Entry) : listing (e :: es) = e.line ++ listing es := rfl

theorem zero_not_mem_line {e : Entry} (h : 0 ∉ e.addr) : 0 ∉ e.line := by
  have hdecimal : ∀ v, 0 ∉ decimal v := fun v => not_mem_decimal (by decide) (by decide) v
  simp only [Entry.line, List.mem_append, not_or]
  exact ⟨⟨⟨⟨⟨by decide, hdecimal _⟩, by decide⟩, h⟩, by decide⟩, hdecimal _⟩

/-! ### One line -/

theorem string_iff {n : Nat} {b : Buffer n} {t : Bytes} :
    b.string = some t ↔ 0 ∉ t ∧ t <+: b.bytes ∧ b.bytes[t.length]? = some 0 := by
  constructor
  · intro h
    have hzero := (Buffer.of_string_eq h).1
    obtain ⟨rest, hrest⟩ := (string_eq_some hzero).mp h
    refine ⟨hzero, ?_, ?_⟩
    · rw [← hrest, List.append_assoc]
      exact List.prefix_append _ _
    · rw [← hrest, List.append_assoc, List.getElem?_append_right (Nat.le_refl _), Nat.sub_self]
      rfl
  · rintro ⟨hzero, ⟨rest, hrest⟩, hget⟩
    rw [← hrest, List.getElem?_append_right (Nat.le_refl _), Nat.sub_self] at hget
    obtain ⟨rest', rfl⟩ := List.head?_eq_some_iff.mp (List.head?_eq_getElem? ▸ hget)
    exact (string_eq_some hzero).mpr ⟨rest', by rw [← hrest, List.append_assoc]; rfl⟩

theorem appendLines_cons (e : Entry) (es : List Entry) (data : Buffer dataSize) :
    appendLines (e :: es) data = if e.line.length < 256 then
      data.strlen.bind fun i => (data.write i e.line).bind (appendLines es) else none := by
  rw [appendLines]
  split
  · rename_i hlt
    obtain ⟨tmp, htmp⟩ := (Buffer.zero 256).strcpy_isSome hlt
    have hbytes := Buffer.write_bytes htmp
    rw [List.take_zero, List.nil_append, List.append_assoc] at hbytes
    rw [htmp, Option.bind_eq_bind, Option.bind_some, hbytes, List.take_left' rfl]
    rfl
  · rename_i hge
    have hnone : (Buffer.zero 256).strcpy e.line = none := by
      rw [Buffer.strcpy, Buffer.write, dif_neg]
      rw [List.length_append, List.length_singleton]
      omega
    rw [hnone]
    rfl

theorem bytes_of_write {b b₁ : Buffer dataSize} {t line : Bytes} (ht : b.string = some t)
    (h : b.write t.length line = some b₁) :
    t ++ line <+: b₁.bytes ∧ ∀ j, (t ++ line).length ≤ j → b₁.bytes[j]? = b.bytes[j]? := by
  obtain ⟨-, ⟨rest, hrest⟩, -⟩ := string_iff.mp ht
  have hbytes := Buffer.write_bytes h
  have htake : b.bytes.take t.length = t := by rw [← hrest, List.take_left]
  rw [htake] at hbytes
  refine ⟨⟨_, hbytes.symm⟩, fun j hj => ?_⟩
  rw [List.length_append] at hj
  rw [hbytes, List.getElem?_append_right (by rw [List.length_append]; exact hj), List.getElem?_drop,
    List.length_append]
  congr 1
  omega

theorem strlen_of_string {n : Nat} {b : Buffer n} {t : Bytes} (h : b.string = some t) :
    b.strlen = some t.length := by
  obtain ⟨i, hi, rfl⟩ := Option.map_eq_some_iff.mp h
  obtain ⟨hlt, -⟩ := List.idxOf?_eq_some_iff.mp hi
  rw [List.length_take, Nat.min_eq_left (Nat.le_of_lt hlt)]
  exact hi

/-! ### All lines -/

theorem appendLines_eq_some {e : Entry} {es : List Entry} {b b' : Buffer dataSize} {t : Bytes}
    (ht : b.string = some t) : appendLines (e :: es) b = some b' ↔
      e.line.length < 256 ∧ ∃ b₁, b.write t.length e.line = some b₁ ∧ appendLines es b₁ = some b' := by
  rw [appendLines_cons, strlen_of_string ht, Option.bind_some]
  split
  · rename_i hlt
    rw [Option.bind_eq_some_iff, and_iff_right hlt]
  · rename_i hge
    refine iff_of_false (fun h => ?_) (fun h => hge h.1)
    cases h

theorem string_of_appendLines {es : List Entry} {b b' : Buffer dataSize} {t' : Bytes}
    (h : appendLines es b = some b') (ht' : b'.string = some t') : ∃ t, b.string = some t := by
  cases es with
  | nil =>
      cases h
      exact ⟨t', ht'⟩
  | cons e es =>
      rw [appendLines_cons] at h
      split at h
      · obtain ⟨i, hi, -⟩ := Option.bind_eq_some_iff.mp h
        exact ⟨b.bytes.take i, by rw [Buffer.string, hi, Option.map_some]⟩
      · cases h

/-- There is no zero in the line, so that the new string covers it. -/
theorem prefix_string_of_write {b b₁ : Buffer dataSize} {t line t₁ : Bytes} (ht : b.string = some t)
    (hline : 0 ∉ line) (h : b.write t.length line = some b₁) (ht₁ : b₁.string = some t₁) :
    t ++ line <+: t₁ := by
  obtain ⟨-, hpre₁, hend₁⟩ := string_iff.mp ht₁
  obtain ⟨hpre, -⟩ := bytes_of_write ht h
  refine List.prefix_of_prefix_length_le hpre hpre₁ ?_
  by_contra hlt
  rw [Nat.not_le] at hlt
  obtain ⟨rest, hrest⟩ := hpre
  rw [← hrest, List.getElem?_append_left hlt] at hend₁
  rcases List.mem_append.mp (List.mem_of_getElem? hend₁) with hmem | hmem
  · exact (string_iff.mp ht).1 hmem
  · exact hline hmem

/-- The string only grows, by the lines at least. -/
theorem growth {es : List Entry} {b b' : Buffer dataSize} {t t' : Bytes}
    (hzero : ∀ e ∈ es, 0 ∉ e.addr) (ht : b.string = some t) (h : appendLines es b = some b')
    (ht' : b'.string = some t') : ∃ u, t' = t ++ u ∧ (listing es).length ≤ u.length := by
  induction es generalizing b t with
  | nil =>
      cases h
      refine ⟨[], ?_, Nat.le_refl 0⟩
      rw [List.append_nil]
      exact Option.some.inj (ht'.symm.trans ht)
  | cons e es ih =>
      obtain ⟨-, b₁, hwrite, h⟩ := (appendLines_eq_some ht).mp h
      obtain ⟨t₁, ht₁⟩ := string_of_appendLines h ht'
      obtain ⟨u, rfl, hu⟩ := ih (fun e' he' => hzero e' (List.mem_cons_of_mem _ he')) ht₁ h
      have hline := zero_not_mem_line (hzero e List.mem_cons_self)
      obtain ⟨g, rfl⟩ := prefix_string_of_write ht hline hwrite ht₁
      refine ⟨e.line ++ g ++ u, by simp only [List.append_assoc], ?_⟩
      rw [listing_cons, List.length_append, List.length_append, List.length_append]
      omega

/-- If the whole list follows a string, its first line is written right behind the string and ends there:
the lengths leave nothing between the lines. -/
theorem string_of_first {e : Entry} {es : List Entry} {b b₁ b' : Buffer dataSize} {t : Bytes}
    (hzero : ∀ x ∈ e :: es, 0 ∉ x.addr) (ht : b.string = some t)
    (hwrite : b.write t.length e.line = some b₁) (h : appendLines es b₁ = some b')
    (hb' : b'.string = some (t ++ listing (e :: es))) : b₁.string = some (t ++ e.line) := by
  obtain ⟨t₁, ht₁⟩ := string_of_appendLines h hb'
  obtain ⟨g, rfl⟩ := prefix_string_of_write ht (zero_not_mem_line (hzero e List.mem_cons_self)) hwrite ht₁
  obtain ⟨u, hu, hlen⟩ := growth (fun x hx => hzero x (List.mem_cons_of_mem _ hx)) ht₁ h hb'
  have hg : g = [] := by
    have htotal := congrArg List.length hu
    rw [listing_cons] at htotal
    simp only [List.length_append] at htotal
    exact List.length_eq_zero_iff.mp (by omega)
  rwa [hg, List.append_nil] at ht₁

/-- A line whose end falls on a zero of the buffer can be written, and the string ends with it. -/
theorem write_of_zero {b : Buffer dataSize} {t line : Bytes} (ht : b.string = some t) (hline : 0 ∉ line)
    (hend : b.bytes[(t ++ line).length]? = some 0) :
    (t ++ line).length < 254 ∧ ∃ b₁, b.write t.length line = some b₁ ∧ b₁.string = some (t ++ line) := by
  have hfits : (t ++ line).length < 254 := by
    obtain ⟨hlt, -⟩ := List.getElem?_eq_some_iff.mp hend
    rwa [b.length_eq] at hlt
  refine ⟨hfits, ?_⟩
  rw [List.length_append] at hfits
  obtain ⟨b₁, hwrite⟩ : ∃ b₁, b.write t.length line = some b₁ := by
    rw [Buffer.write, dif_pos (Nat.le_of_lt hfits)]
    exact ⟨_, rfl⟩
  obtain ⟨hpre, hbytes⟩ := bytes_of_write ht hwrite
  have hnew : 0 ∉ t ++ line := by
    rw [List.mem_append, not_or]
    exact ⟨(string_iff.mp ht).1, hline⟩
  exact ⟨b₁, hwrite, string_iff.mpr ⟨hnew, hpre, by rw [hbytes _ (Nat.le_refl _), hend]⟩⟩

/-- From a string, the lines follow it without gaps exactly if the buffer has a zero where each ends. -/
theorem appendLines_iff {es : List Entry} {b : Buffer dataSize} {t : Bytes}
    (hzero : ∀ e ∈ es, 0 ∉ e.addr) (ht : b.string = some t) :
    (∃ b', appendLines es b = some b' ∧ b'.string = some (t ++ listing es)) ↔
      ∀ earlier, earlier <+: es → b.bytes[(t ++ listing earlier).length]? = some 0 := by
  induction es generalizing b t with
  | nil =>
      refine iff_of_true ⟨b, rfl, by rw [ht]; simp [listing]⟩ fun earlier hearlier => ?_
      rw [List.prefix_nil.mp hearlier]
      simpa [listing] using (string_iff.mp ht).2.2
  | cons e es ih =>
      have htail : ∀ e' ∈ es, 0 ∉ e'.addr := fun e' he' => hzero e' (List.mem_cons_of_mem _ he')
      have hlength (earlier : List Entry) : (t ++ listing (e :: earlier)).length =
          (t ++ e.line ++ listing earlier).length := by
        rw [listing_cons, List.append_assoc]
      have hle (earlier : List Entry) : (t ++ e.line).length ≤ (t ++ e.line ++ listing earlier).length := by
        rw [@List.length_append _ (t ++ e.line)]
        exact Nat.le_add_right _ _
      constructor
      · rintro ⟨b', h, hb'⟩ earlier hearlier
        obtain ⟨-, b₁, hwrite, h⟩ := (appendLines_eq_some ht).mp h
        have ht₁ := string_of_first hzero ht hwrite h hb'
        have hzeros := (ih htail ht₁).mp ⟨b', h, by rw [hb', listing_cons, List.append_assoc]⟩
        cases earlier with
        | nil => simpa [listing] using (string_iff.mp ht).2.2
        | cons e' earlier =>
            obtain ⟨rfl, htail'⟩ := List.cons_prefix_cons.mp hearlier
            rw [hlength, ← (bytes_of_write ht hwrite).2 _ (hle earlier)]
            exact hzeros earlier htail'
      · intro hzeros
        have hend : b.bytes[(t ++ e.line).length]? = some 0 := by
          have hone := hzeros [e] (List.cons_prefix_cons.mpr ⟨rfl, List.nil_prefix⟩)
          rwa [hlength, listing, List.flatMap_nil, List.append_nil] at hone
        have hline := zero_not_mem_line (hzero e List.mem_cons_self)
        obtain ⟨hfits, b₁, hwrite, ht₁⟩ := write_of_zero ht hline hend
        obtain ⟨-, hbytes⟩ := bytes_of_write ht hwrite
        obtain ⟨b', h, hb'⟩ := (ih htail ht₁).mpr fun earlier hearlier => by
          rw [hbytes _ (hle earlier), ← hlength]
          exact hzeros (e :: earlier) (List.cons_prefix_cons.mpr ⟨rfl, hearlier⟩)
        rw [List.length_append] at hfits
        refine ⟨b', (appendLines_eq_some ht).mpr ⟨by omega, b₁, hwrite, h⟩, ?_⟩
        rw [hb', listing_cons, List.append_assoc]

/-- The reply holds the whole list: the case writes inside the buffer and sends the lines of the clients as
a terminated text. -/
def RepliesList (clients : List Entry) (connFd : Nat) (env : Env) : Prop :=
  ∃ data, getClientList clients connFd env = some (reply clients connFd .getClientList data) ∧
    data.string = some (listing clients)

/-- **When the client list is complete and fits.** The bytes of the uninitialised buffer must be zero at its
start and where each line ends, so that the lines have at most 253 bytes. -/
theorem repliesList_iff {clients : List Entry} (haddr : ∀ e ∈ clients, 0 ∉ e.addr) (connFd : Nat)
    (env : Env) : RepliesList clients connFd env ↔
      ∀ earlier, earlier <+: clients → env.mes.bytes[(listing earlier).length]? = some 0 := by
  have hreply : RepliesList clients connFd env ↔
      ∃ data, appendLines clients env.mes = some data ∧ data.string = some (listing clients) := by
    unfold RepliesList getClientList
    cases appendLines clients env.mes with
    | none => simp
    | some data => simp [reply]
  rw [hreply]
  constructor
  · rintro ⟨data, h, hdata⟩
    obtain ⟨t, ht⟩ := string_of_appendLines h hdata
    obtain ⟨u, hu, hlen⟩ := growth haddr ht h hdata
    have hnil : t = [] := by
      have htotal := congrArg List.length hu
      rw [List.length_append] at htotal
      exact List.length_eq_zero_iff.mp (by omega)
    subst hnil
    have hzeros := (appendLines_iff haddr ht).mp ⟨data, h, hdata⟩
    simpa only [List.nil_append] using hzeros
  · intro hzeros
    have hempty : env.mes.string = some [] :=
      string_iff.mpr ⟨List.not_mem_nil, List.nil_prefix, hzeros [] List.nil_prefix⟩
    refine (appendLines_iff haddr hempty).mpr ?_
    simpa only [List.nil_append] using hzeros

/-- A buffer without a zero. -/
def onesEnv : Env := { zeroEnv with mes := ⟨List.replicate 254 1, List.length_replicate⟩ }

theorem list_incomplete : ¬ RepliesList [firstEntry] 4 onesEnv := by
  rintro ⟨data, h, -⟩
  have hnone : (getClientList [firstEntry] 4 onesEnv).isSome = false := by decide +kernel
  rw [h] at hnone
  cases hnone

theorem list_complete : RepliesList [firstEntry, secondEntry] 4 zeroEnv := by
  refine (repliesList_iff (by decide) 4 zeroEnv).mpr fun earlier hearlier => ?_
  have hle := hearlier.length_le
  have hzero : ∀ i < 254, zeroEnv.mes.bytes[i]? = some 0 :=
    fun i hi => List.getElem?_replicate_of_lt hi
  have hlisting : ∀ k ≤ 2, (listing ([firstEntry, secondEntry].take k)).length < 254 := by decide
  rw [List.prefix_iff_eq_take.mp hearlier]
  exact hzero _ (hlisting _ hle)

end SmallTrial.Chat.Server

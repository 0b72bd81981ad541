import SharedBike.Client
import SharedBike.Library.Footprints

/-!
# What the client's callbacks touch

Every access of the two callbacks to their buffers, in order, up to the one
that leaves its buffer. The callbacks compare nothing with the size of the
buffers or with the number of received bytes, so their accesses are confined
to both exactly when the peer and the terminal keep to what they rely on.
-/

set_option autoImplicit false

namespace SharedBike.ClientBuffers
open LittleEndian Footprints
open SharedBike.Globals SharedBike.BikeProtocol SharedBike.NetworkInterface SharedBike.Client

inductive Buffer where
  | cmd
  | msg
  deriving DecidableEq, Repr

inductive Use where
  | stored
  | printed
  | command
  | magic
  | field
  | body
  | sent
  deriving DecidableEq, Repr

/-- The size that the runtime makes of an `int`. -/
def parseSize (len : ℤ) : ℕ := (len%2^64).toNat

def eventIdOf (msg : Bytes) : ℕ := read ((msg.drop 4).take 2)

def lenOf (msg : Bytes) : ℤ := asI32 (read ((msg.drop 6).take 4))

/-- The fields are read behind the magic word, and the body of a response is
parsed whatever its length. -/
def headerAccesses (msg : Bytes) : List (Access Buffer Use) :=
  if msg.take 4 = messageHeader then
    ⟨.msg, .field, 4, 2⟩::⟨.msg, .field, 6, 4⟩::
      if eventIdOf msg = 2 ∨ eventIdOf msg = 4 then [⟨.msg, .body, 10, parseSize (lenOf msg)⟩]
      else []
  else []

/-- The text is printed up to its first NUL. -/
def reactAccesses (msg : Bytes) : List (Access Buffer Use) :=
  ⟨.msg, .printed, 0, (cStr msg).length+1⟩::⟨.msg, .magic, 0, compared 0 msg messageHeader⟩::
    headerAccesses msg

def serverMsgAccesses (msg got : Bytes) : List (Access Buffer Use) :=
  if got = [] then [] else
    ⟨.msg, .stored, 0, got.length⟩::⟨.msg, .stored, got.length, 1⟩::
      match storeRead msg got with
      | .error _ => []
      | .ok msg => reactAccesses msg

def requestAccesses (payload : Bytes) : List (Access Buffer Use) :=
  [⟨.msg, .stored, 0, 4⟩, ⟨.msg, .stored, 4, 2⟩, ⟨.msg, .stored, 6, 4⟩,
    ⟨.msg, .stored, 10, payload.length⟩, ⟨.msg, .sent, 0, payload.length+10⟩]

/-- One comparison of the typed line with a command, and the request if they agree. -/
def commandAccesses (cmd name payload : Bytes) : List (Access Buffer Use) :=
  ⟨.cmd, .command, 0, compared 0 (cmd++[0]) (name++[0])⟩::
    if cmd = name then requestAccesses payload else []

def cmdMsgAccesses (pb : Protobuf) (icode : Int32) (typed : Bytes) : List (Access Buffer Use) :=
  ⟨.cmd, .stored, 0, typed.length⟩::⟨.cmd, .stored, (typed.length : ℤ)-1, 1⟩::
    match readCmd typed with
    | .error _ => []
    | .ok cmd => ⟨.cmd, .printed, 0, cmd.length+1⟩::
        (commandAccesses cmd (ascii "send_mr")
            (pb.mobileRequest.serializeToArray ⟨clientMobile⟩)++
          commandAccesses cmd (ascii "send_lr")
            (pb.loginRequest.serializeToArray ⟨clientMobile, icode⟩))

def InBuffers (as : List (Access Buffer Use)) : Prop := Confined (fun _ => True) bufferLen as

/-- The bytes that are taken for a header or given to the parser. -/
def Interpreted (a : Access Buffer Use) : Prop :=
  a.use = .magic ∨ a.use = .field ∨ a.use = .body

/-- Only received bytes are interpreted. -/
def FromRead (n : ℕ) (as : List (Access Buffer Use)) : Prop := Confined Interpreted n as

/-- A read that the callback can handle: it leaves a cell for the terminator, it
does not end inside the magic word, behind which it holds a whole header, and
it holds the whole body of a response. -/
structure Whole (got : Bytes) : Prop where
  room : got.length < bufferLen
  magic : ¬ got <+: messageHeader
  header : messageHeader <+: got → messageHeaderLen ≤ got.length
  body : messageHeader <+: got → eventIdOf got = 2 ∨ eventIdOf got = 4 →
    0 ≤ lenOf got ∧ messageHeaderLen+lenOf got ≤ got.length

theorem len_range (msg : Bytes) : -2^31 ≤ lenOf msg ∧ lenOf msg < 2^31 := by
  have hl := read_lt ((msg.drop 6).take 4)
  have hle : ((msg.drop 6).take 4).length ≤ 4 := List.length_take_le _ _
  have hp : 256^((msg.drop 6).take 4).length ≤ 256^4 := Nat.pow_le_pow_right (by decide) hle
  rw [lenOf, asI32]
  split <;> omega

/-- A body is inside `n` bytes only if its length is taken for what it is. -/
theorem body_within {len : ℤ} {n : ℕ} (hlen : -2^31 ≤ len ∧ len < 2^31) (hn : n ≤ bufferLen)
    (hh : messageHeaderLen ≤ n) :
    (⟨.msg, .body, 10, parseSize len⟩ : Access Buffer Use).Within n ↔
      0 ≤ len ∧ messageHeaderLen+len ≤ n := by
  have hb : bufferLen = 1024 := rfl
  have hm : messageHeaderLen = 10 := rfl
  rw [within_iff, parseSize]
  omega

section Stored
variable {got tail : Bytes}

theorem header_no_nul : 0 ∉ messageHeader := by decide

theorem magic_iff : (got++0::tail).take 4 = messageHeader ↔ messageHeader <+: got := by
  rw [← begins_terminated (u := tail) header_no_nul, List.prefix_iff_eq_take, eq_comm]
  rfl

/-- The fields of a whole header are those of the received bytes. -/
theorem stored_fields (tail : Bytes) (h : messageHeaderLen ≤ got.length) :
    eventIdOf (got++0::tail) = eventIdOf got ∧ lenOf (got++0::tail) = lenOf got := by
  have hm : messageHeaderLen = 10 := rfl
  constructor
  · rw [eventIdOf, List.drop_append_of_le_length (by omega),
      List.take_append_of_le_length (by rw [List.length_drop]; omega), ← eventIdOf]
  · rw [lenOf, List.drop_append_of_le_length (by omega),
      List.take_append_of_le_length (by rw [List.length_drop]; omega), ← lenOf]

/-- The whole header and the whole body that it announces are inside. -/
theorem header_confined {p : Access Buffer Use → Prop} {n : ℕ} (hn : n ≤ bufferLen)
    (hp : ∀ a : Access Buffer Use, a.use = .field ∨ a.use = .body → p a) :
    Confined p n (headerAccesses (got++0::tail)) ↔
      (messageHeader <+: got → messageHeaderLen ≤ n ∧
        (eventIdOf (got++0::tail) = 2 ∨ eventIdOf (got++0::tail) = 4 →
          0 ≤ lenOf (got++0::tail) ∧ messageHeaderLen+lenOf (got++0::tail) ≤ n)) := by
  have hm : messageHeaderLen = 10 := rfl
  by_cases hmagic : messageHeader <+: got
  · have h2 : (⟨.msg, .field, 4, 2⟩ : Access Buffer Use).Within n ↔ 6 ≤ n := by
      rw [within_iff]
      omega
    have h4 : (⟨.msg, .field, 6, 4⟩ : Access Buffer Use).Within n ↔ messageHeaderLen ≤ n := by
      rw [within_iff]
      omega
    rw [headerAccesses, if_pos (magic_iff.mpr hmagic), confined_cons, confined_cons,
      imp_iff_right (hp _ (Or.inl rfl)), imp_iff_right (hp _ (Or.inl rfl)), h2, h4,
      imp_iff_right hmagic]
    by_cases hh : messageHeaderLen ≤ n
    · have h6 : 6 ≤ n := by omega
      by_cases he : eventIdOf (got++0::tail) = 2 ∨ eventIdOf (got++0::tail) = 4
      · rw [if_pos he, confined_cons, imp_iff_right (hp _ (Or.inr rfl)),
          body_within (len_range _) hn hh]
        simp [h6, hh, he, confined_nil]
      · simp [h6, hh, he, confined_nil]
    · simp [hh]
  · rw [headerAccesses, if_neg (mt magic_iff.mp hmagic)]
    simp [hmagic, confined_nil]

/-- The same for the number of received bytes, read off these bytes. -/
theorem header_received {p : Access Buffer Use → Prop} (h : got.length ≤ bufferLen)
    (hp : ∀ a : Access Buffer Use, a.use = .field ∨ a.use = .body → p a) :
    Confined p got.length (headerAccesses (got++0::tail)) ↔
      (messageHeader <+: got → messageHeaderLen ≤ got.length ∧
        (eventIdOf got = 2 ∨ eventIdOf got = 4 →
          0 ≤ lenOf got ∧ messageHeaderLen+lenOf got ≤ got.length)) := by
  rw [header_confined h hp]
  refine forall_congr' fun _ => and_congr_right fun hh => ?_
  have hf := stored_fields tail hh
  rw [hf.1, hf.2]

/-- Behind the terminator nothing leaves the buffer but the body. -/
theorem react_in_buffers (h : got.length < bufferLen) :
    InBuffers (reactAccesses (got++0::tail)) ↔
      (messageHeader <+: got → eventIdOf (got++0::tail) = 2 ∨ eventIdOf (got++0::tail) = 4 →
        0 ≤ lenOf (got++0::tail) ∧ messageHeaderLen+lenOf (got++0::tail) ≤ bufferLen) := by
  have hb : bufferLen = 1024 := rfl
  have hm : messageHeaderLen ≤ bufferLen := by decide
  have hprint : (cStr (got++0::tail)).length ≤ got.length := take_while_terminated got tail
  have hmagic : compared 0 (got++0::tail) messageHeader ≤ 4 := compared_le _ _
  have h1 : (cStr (got++0::tail)).length+1 ≤ bufferLen := by omega
  have h2 : compared 0 (got++0::tail) messageHeader ≤ bufferLen := by omega
  rw [InBuffers, reactAccesses, confined_cons, confined_cons, front_within, front_within,
    header_confined le_rfl fun _ _ => trivial]
  simp [h1, h2, hm]

/-- What the callback interprets was received if the read ends behind the header
and the body, and not inside the magic word. -/
theorem react_from_read (h : got.length ≤ bufferLen) :
    FromRead got.length (reactAccesses (got++0::tail)) ↔
      ¬ got <+: messageHeader ∧
      (messageHeader <+: got → messageHeaderLen ≤ got.length ∧
        (eventIdOf got = 2 ∨ eventIdOf got = 4 →
          0 ≤ lenOf got ∧ messageHeaderLen+lenOf got ≤ got.length)) := by
  have hstops := compared_stops (u := tail) (s := got) header_no_nul
  have h1 : ¬ Interpreted ⟨.msg, .printed, 0, (cStr (got++0::tail)).length+1⟩ := by
    simp [Interpreted]
  have h2 : Interpreted ⟨.msg, .magic, 0, compared 0 (got++0::tail) messageHeader⟩ := Or.inl rfl
  rw [FromRead, reactAccesses, confined_cons, confined_cons, imp_iff_right h2, front_within,
    front_within, hstops, header_received h fun a ha => show Interpreted a from Or.inr ha]
  constructor
  · rintro ⟨-,hshort,hheader⟩
    refine ⟨fun hpre => ?_,hheader⟩
    -- a read that the comparison finds long enough is the whole word, and has no header
    obtain rfl : got = messageHeader := hpre.eq_of_length_le (hshort hpre)
    exact absurd (hheader List.prefix_rfl).1 (by decide)
  · rintro ⟨hpre,hheader⟩
    exact ⟨fun hp => absurd hp h1,fun hp => absurd hp hpre,hheader⟩

end Stored

theorem server_accesses_eq {msg got : Bytes} (hm : msg.length = bufferLen) (hne : got ≠ [])
    (hg : got.length < bufferLen) :
    serverMsgAccesses msg got =
      ⟨.msg, .stored, 0, got.length⟩::⟨.msg, .stored, got.length, 1⟩::
        reactAccesses (got++0::msg.drop (got.length+1)) := by
  rw [serverMsgAccesses, if_neg hne, store_terminated hm hg]

/-- A read that fills the buffer puts the terminator behind it. -/
theorem full_read_outside {msg got : Bytes} (hne : got ≠ []) (hg : bufferLen ≤ got.length) :
    ¬ InBuffers (serverMsgAccesses msg got) := by
  rw [serverMsgAccesses, if_neg hne, InBuffers, confined_cons, confined_cons]
  rintro ⟨-,hterm,-⟩
  have h := (hterm trivial) got.length ⟨le_rfl,by simp only; omega⟩
  omega

theorem server_in_buffers {msg got : Bytes} (hm : msg.length = bufferLen) (hne : got ≠ [])
    (hg : got.length < bufferLen) :
    InBuffers (serverMsgAccesses msg got) ↔
      InBuffers (reactAccesses (got++0::msg.drop (got.length+1))) := by
  have hstore : (⟨.msg, .stored, got.length, 1⟩ : Access Buffer Use).Within bufferLen := by
    rw [within_iff]
    omega
  rw [server_accesses_eq hm hne hg, InBuffers, confined_cons, confined_cons, front_within]
  simp [hg.le, hstore, InBuffers]

theorem server_from_read {msg got : Bytes} (hm : msg.length = bufferLen) (hne : got ≠ [])
    (hg : got.length < bufferLen) :
    FromRead got.length (serverMsgAccesses msg got) ↔
      FromRead got.length (reactAccesses (got++0::msg.drop (got.length+1))) := by
  rw [server_accesses_eq hm hne hg, FromRead, confined_cons, confined_cons]
  simp [Interpreted, FromRead]

/-- The comparison with the magic word left aside, a read may also end inside
the word. -/
theorem server_fields_received {msg got : Bytes} (hm : msg.length = bufferLen) (hne : got ≠ [])
    (hg : got.length < bufferLen) :
    Confined (fun a => a.use = .field ∨ a.use = .body) got.length (serverMsgAccesses msg got) ↔
      (messageHeader <+: got → messageHeaderLen ≤ got.length ∧
        (eventIdOf got = 2 ∨ eventIdOf got = 4 →
          0 ≤ lenOf got ∧ messageHeaderLen+lenOf got ≤ got.length)) := by
  rw [server_accesses_eq hm hne hg, reactAccesses, confined_cons, confined_cons, confined_cons,
    confined_cons, header_received hg.le fun _ ha => ha]
  simp only [reduceCtorEq, or_self, false_imp_iff, true_and]

/-- The server callback stays inside its buffer and inside what it received
exactly on the reads that it can handle. -/
theorem server_contained {msg got : Bytes} (hm : msg.length = bufferLen) (hne : got ≠ []) :
    (InBuffers (serverMsgAccesses msg got) ∧ FromRead got.length (serverMsgAccesses msg got)) ↔
      Whole got := by
  by_cases hg : got.length < bufferLen
  · rw [server_in_buffers hm hne hg, server_from_read hm hne hg, react_in_buffers hg,
      react_from_read hg.le]
    constructor
    · rintro ⟨-,hpre,hheader⟩
      exact ⟨hg,hpre,fun hmagic => (hheader hmagic).1,fun hmagic => (hheader hmagic).2⟩
    · intro h
      refine ⟨fun hmagic => ?_,h.magic,fun hmagic => ⟨h.header hmagic,h.body hmagic⟩⟩
      have hf := stored_fields (msg.drop (got.length+1)) (h.header hmagic)
      rw [hf.1, hf.2]
      intro he
      have hbody := h.body hmagic he
      exact ⟨hbody.1,by omega⟩
  · constructor
    · rintro ⟨h,-⟩
      exact absurd h (full_read_outside hne (by omega))
    · intro h
      exact absurd h.room hg

theorem map_fails {α β : Type} {x : Except Fault α} {g : α → β} :
    (∃ f, x.map g = .error f) ↔ ∃ f, x = .error f := by
  cases x <;> simp [Except.map]

theorem parse_body_fails {M : Type} (c : Codec M) {msg : Bytes} {len : ℤ} :
    (∃ f, parseBody c msg len = .error f) ↔ len < 0 ∨ msg.length < 10+len := by
  rw [parseBody]
  split <;> simp_all

theorem react_fails (pb : Protobuf) (icode : Int32) (msg : Bytes) :
    (∃ f, react pb icode msg = .error f) ↔ msg.take 4 = messageHeader ∧
      (eventIdOf msg = 2 ∨ eventIdOf msg = 4) ∧ (lenOf msg < 0 ∨ msg.length < 10+lenOf msg) := by
  rw [react, eventIdOf, lenOf]
  by_cases hmagic : msg.take 4 = messageHeader
  · rw [if_pos hmagic]
    generalize asI32 (read ((msg.drop 6).take 4)) = len
    generalize read ((msg.drop 4).take 2) = eid
    by_cases h2 : eid = 2
    · simp only [if_pos h2, map_fails, parse_body_fails]
      simp [hmagic, h2]
    by_cases h4 : eid = 4
    · simp only [if_neg h2, if_pos h4, map_fails, parse_body_fails]
      simp [hmagic, h4]
    · simp [h2, h4]
  · simp [hmagic]

/-- The buffer is left exactly when the callback faults. -/
theorem server_faults (pb : Protobuf) {msg got : Bytes} (hm : msg.length = bufferLen)
    (icode : Int32) (hgot : got.length ≤ bufferLen) :
    (∃ f, serverMsgCb pb msg icode got = .error f) ↔ ¬ InBuffers (serverMsgAccesses msg got) := by
  by_cases hne : got = []
  · subst hne
    simp [serverMsgCb, serverMsgAccesses, InBuffers, confined_nil]
  by_cases hg : got.length < bufferLen
  · rw [serverMsgCb, if_neg hne, store_terminated hm hg, server_in_buffers hm hne hg,
      react_in_buffers hg]
    simp only [Except.bind]
    have hten : messageHeaderLen = 10 := rfl
    rw [react_fails, magic_iff, terminated_length hm hg, hten]
    simp only [Classical.not_imp, not_and_or, not_le, Nat.cast_ofNat]
  · have hfull : ¬ InBuffers (serverMsgAccesses msg got) := full_read_outside hne (by omega)
    simp [serverMsgCb, hne, store_full hm (show bufferLen ≤ got.length by omega), Except.bind,
      hfull]

theorem request_in_buffers (payload : Bytes) :
    InBuffers (requestAccesses payload) ↔ payload.length+10 ≤ bufferLen := by
  have hb : bufferLen = 1024 := rfl
  simp only [InBuffers, requestAccesses, confined_cons, confined_nil, within_iff, true_imp_iff,
    and_true]
  omega

theorem command_in_buffers {cmd : Bytes} (hcmd : cmd.length < bufferLen) (name payload : Bytes) :
    InBuffers (commandAccesses cmd name payload) ↔
      (cmd = name → payload.length+10 ≤ bufferLen) := by
  have hcmp : compared 0 (cmd++[0]) (name++[0]) ≤ bufferLen :=
    (compared_terminated cmd [] (name++[0])).trans hcmd
  have hreq := request_in_buffers payload
  rw [InBuffers] at hreq
  rw [InBuffers, commandAccesses, confined_cons, front_within]
  by_cases he : cmd = name
  · rw [if_pos he, imp_iff_right he, hreq]
    simp [hcmp]
  · simp [hcmp, he, confined_nil]

theorem line_length {typed : Bytes} (hne : typed ≠ []) :
    (cStr typed.dropLast).length+1 ≤ typed.length := by
  have hpos : 0 < typed.length := List.length_pos_of_ne_nil hne
  have h := c_str_length typed.dropLast
  rw [List.length_dropLast] at h
  omega

/-- The command callback leaves its buffers at the end of the file, and with a
request that does not fit. -/
theorem cmd_in_buffers (pb : Protobuf) (icode : Int32) {typed : Bytes}
    (ht : typed.length ≤ bufferLen) :
    InBuffers (cmdMsgAccesses pb icode typed) ↔ typed ≠ [] ∧
      (cStr typed.dropLast = ascii "send_mr" →
        pb.mobileRequest.byteSize ⟨clientMobile⟩+10 ≤ bufferLen) ∧
      (cStr typed.dropLast = ascii "send_lr" →
        pb.loginRequest.byteSize ⟨clientMobile, icode⟩+10 ≤ bufferLen) := by
  by_cases hne : typed = []
  · subst hne
    simp only [ne_eq, not_true, false_and, iff_false]
    intro h
    have hterm := h ⟨.cmd, .stored, -1, 1⟩ (by simp [cmdMsgAccesses]) trivial
    exact absurd (hterm (-1) ⟨le_rfl,by decide⟩).1 (by decide)
  · have hpos : 0 < typed.length := List.length_pos_of_ne_nil hne
    have hlen := line_length hne
    have hcmd : (cStr typed.dropLast).length < bufferLen := by omega
    have hterm : (⟨.cmd, .stored, (typed.length : ℤ)-1, 1⟩ : Access Buffer Use).Within
        bufferLen := by
      rw [within_iff]
      omega
    have hprint : (cStr typed.dropLast).length+1 ≤ bufferLen := hcmd
    rw [cmdMsgAccesses, readCmd, if_neg hne, InBuffers, confined_cons, confined_cons,
      confined_cons, confined_append, front_within, front_within, ← InBuffers, ← InBuffers,
      command_in_buffers hcmd, command_in_buffers hcmd]
    simp only [ht, hterm, hprint, hne, true_imp_iff, true_and, ne_eq, not_false_iff]
    rfl

theorem assemble_fails {msg payload : Bytes} (eid : ℕ) (hm : msg.length = bufferLen) :
    (∃ f, assembleRequest msg eid payload = .error f) ↔ ¬ payload.length+10 ≤ bufferLen := by
  by_cases hp : payload.length+10 ≤ bufferLen
  · simp [assemble_request_eq eid hm hp, hp]
  · have hh : messageHeader.length = 4 := rfl
    have hb : bufferLen = 1024 := rfl
    obtain ⟨m1,e1,l1,-⟩ := store_next (show 0+messageHeader.length ≤ msg.length by omega)
    obtain ⟨m2,e2,l2,-⟩ := store_next
      (show 4+(write 2 eid).length ≤ m1.length by rw [write_length]; omega)
    obtain ⟨m3,e3,l3,-⟩ := store_next
      (show 6+(write 4 payload.length).length ≤ m2.length by rw [write_length]; omega)
    have hlast : storeAt m3 10 payload = .error .outOfBounds := by
      rw [storeAt, if_neg (by omega)]
    simp [assembleRequest, e1, e2, e3, hlast, Except.bind, hp]

/-- The buffers are left exactly when the command callback faults. -/
theorem cmd_faults (pb : Protobuf) {msg typed : Bytes} (hm : msg.length = bufferLen)
    (icode : Int32) (ht : typed.length ≤ bufferLen) :
    (∃ f, cmdMsgCb pb msg icode typed = .error f) ↔
      ¬ InBuffers (cmdMsgAccesses pb icode typed) := by
  rw [cmd_in_buffers pb icode ht, cmdMsgCb, readCmd]
  by_cases hne : typed = []
  · simp [hne, Except.bind]
  rw [if_neg hne]
  simp only [Except.bind]
  generalize cStr typed.dropLast = cmd
  have hdiff : ascii "send_mr" ≠ ascii "send_lr" := by decide
  by_cases hmr : cmd = ascii "send_mr"
  · rw [if_pos hmr, map_fails, sendMr, assemble_fails 1 hm]
    simp only [ne_eq, hne, not_false_iff, true_and, hmr, hdiff, true_imp_iff, false_imp_iff,
      and_true]
    rfl
  by_cases hlr : cmd = ascii "send_lr"
  · rw [if_neg hmr, if_pos hlr, map_fails, sendLr, assemble_fails 3 hm]
    simp only [ne_eq, hne, not_false_iff, true_and, hlr, hdiff.symm, true_imp_iff, false_imp_iff]
    rfl
  · simp [hne, hmr, hlr]

/-- Every byte of the terminal but the end of the file keeps the command
callback inside its buffers: its requests are short. -/
theorem cmd_contained {pb : Protobuf} (hpb : pb.Lawful) (icode : Int32) {typed : Bytes}
    (ht : typed.length ≤ bufferLen) :
    InBuffers (cmdMsgAccesses pb icode typed) ↔ typed ≠ [] := by
  have hb : bufferLen = 1024 := rfl
  have hc : clientMobile.length = 11 := by decide
  have hml := mobile_request_length ⟨clientMobile⟩
  have hll := login_request_length ⟨clientMobile, icode⟩
  simp only [hc] at hml hll
  have hm := hpb.mobileRequest.byte_size ⟨clientMobile⟩ (by omega)
  have hl := hpb.loginRequest.byte_size ⟨clientMobile, icode⟩ (by omega)
  rw [cmd_in_buffers pb icode ht]
  constructor
  · rintro ⟨hne,-⟩
    exact hne
  · intro hne
    exact ⟨hne,fun _ => by omega,fun _ => by omega⟩

/-- The two callbacks stay inside their buffers, and the server callback inside
what it received, exactly on the reads that it can handle; the command
callback leaves its buffer at the end of the file only. -/
theorem contained_iff_whole (pb : Protobuf) (hpb : pb.Lawful) :
    (∀ msg got : Bytes, msg.length = bufferLen → 1 ≤ got.length → got.length ≤ bufferLen →
      ((InBuffers (serverMsgAccesses msg got) ∧
        FromRead got.length (serverMsgAccesses msg got)) ↔ Whole got)) ∧
    ∀ (icode : Int32) (typed : Bytes), typed.length ≤ bufferLen →
      (InBuffers (cmdMsgAccesses pb icode typed) ↔ typed ≠ []) :=
  ⟨fun _ _ hm hpos _ => server_contained hm (List.ne_nil_of_length_pos hpos),
    fun icode _ ht => cmd_contained hpb icode ht⟩

def blankMsg : Bytes := List.replicate bufferLen 0

/-- A response that announces the length `len`. -/
def announced (len : ℕ) (body : Bytes) : Bytes := messageHeader++write 2 4++write 4 len++body

theorem contained_iff_whole_response :
    InBuffers (serverMsgAccesses blankMsg (announced 3 [8, 200, 1])) ∧
      FromRead 13 (serverMsgAccesses blankMsg (announced 3 [8, 200, 1])) ∧
      InBuffers (cmdMsgAccesses proto2 7 (ascii "send_lr\n")) := by
  have h := contained_iff_whole proto2 proto2_lawful
  have hw : Whole (announced 3 [8, 200, 1]) :=
    ⟨by decide,by decide,fun _ => by decide,fun _ _ => by decide⟩
  obtain ⟨hbuf,hread⟩ := (h.1 blankMsg _ List.length_replicate (by decide) (by decide)).mpr hw
  exact ⟨hbuf,hread,(h.2 7 (ascii "send_lr\n") (by decide)).mpr (by decide)⟩

/-- A full buffer, a header without its length, a negative length and the end
of the file. -/
theorem callbacks_overrun :
    ¬ InBuffers (serverMsgAccesses blankMsg (List.replicate bufferLen 65)) ∧
      ¬ FromRead 6 (serverMsgAccesses blankMsg (messageHeader++write 2 4)) ∧
      ¬ InBuffers (serverMsgAccesses blankMsg (announced (2^32-1) [])) ∧
      ¬ InBuffers (cmdMsgAccesses proto2 0 []) := by
  have hl : blankMsg.length = bufferLen := List.length_replicate
  refine ⟨?_,?_,?_,?_⟩
  · have hfull : (List.replicate bufferLen (65 : UInt8)).length = bufferLen :=
      List.length_replicate
    have hpos : 0 < bufferLen := by decide
    exact full_read_outside (List.ne_nil_of_length_pos (by omega)) hfull.ge
  · have hg : (messageHeader++write 2 4).length = 6 := rfl
    have h := (@server_from_read _ (messageHeader++write 2 4) hl (by decide)
      (by decide)).trans (react_from_read (by decide))
    rw [hg] at h
    rw [h]
    decide
  · rw [server_in_buffers hl (by decide) (by decide), react_in_buffers (by decide),
      (stored_fields _ (by decide)).1, (stored_fields _ (by decide)).2]
    decide
  · rw [cmd_in_buffers proto2 0 (by decide)]
    simp

end SharedBike.ClientBuffers

import SharedBike.NetworkInterface

/-!
# The request callback refines the frame reader

The bytes a session holds, followed by its input buffer, are what the frame
reader is given. The callback then does what the reader says: it keeps all
bytes when more are needed, frees the session on a bad header, and dispatches
exactly one complete frame, leaving the remainder in the buffer.
-/

set_option autoImplicit false

namespace SharedBike.RequestReader
open LittleEndian LengthFrames
open SharedBike.Globals SharedBike.BikeProtocol SharedBike.Events
open SharedBike.DispatchMsgService SharedBike.NetworkInterface

def wire : Format := ⟨messageHeader, maxMsgLen, by decide⟩

theorem wire_header_len : headerLen wire = 10 := rfl

theorem wire_tag (b : Bytes) : tagOf wire b = read ((b.drop 4).take 2) := rfl

theorem wire_len (b : Bytes) : lenOf wire b = read ((b.drop 6).take 4) := rfl

theorem wire_good (b : Bytes) : GoodHeader wire b ↔
    b.take 4 = messageHeader ∧ 1 ≤ lenOf wire b ∧ lenOf wire b ≤ maxMsgLen := Iff.rfl

structure HeaderState (cs : ConnectSession) : Prop where
  header_len : cs.readHeaderLen < 10
  msg_len : cs.readMsgLen = 0
  buffer : cs.readBuf = none

/-- The header is complete and good, and the body buffer is not yet full. -/
structure MessageState (cs : ConnectSession) : Prop where
  header_len : cs.readHeaderLen = 10
  good : GoodHeader wire (cs.header.take 10)
  tag : cs.eid = tagOf wire (cs.header.take 10)
  len : cs.msgLen = lenOf wire (cs.header.take 10)
  buffer : ∃ buf, cs.readBuf = some buf ∧ buf.length = cs.msgLen
  room : cs.readMsgLen < cs.msgLen

/-- What holds of every open session between two callbacks. -/
structure ReadState (cs : ConnectSession) : Prop where
  header_cells : cs.header.length = 11
  request : cs.sessionStat = .ssRequest →
    (cs.reqStat = .msReadHeader ∧ HeaderState cs) ∨
      (cs.reqStat = .msReadMessage ∧ MessageState cs)
  response : cs.sessionStat = .ssResponse → cs.readBuf = none ∧ cs.readHeaderLen = 10
  write : cs.writeBuf = none

/-- Bytes read so far for the frame that is not yet dispatched. -/
def pendingBytes (cs : ConnectSession) : Bytes :=
  match cs.sessionStat with
  | .ssResponse => []
  | .ssRequest => cs.header.take cs.readHeaderLen++(cs.readBuf.getD []).take cs.readMsgLen

theorem init_read_state : ReadState sessionInit where
  header_cells := rfl
  request := fun _ => Or.inl ⟨rfl,⟨by decide,rfl,rfl⟩⟩
  response := by decide
  write := rfl

theorem reset_read_state {cs : ConnectSession} (h : cs.header.length = 11) :
    ReadState (sessionReset cs) where
  header_cells := h
  request := fun _ => Or.inl ⟨rfl,⟨by simp [sessionReset],rfl,rfl⟩⟩
  response := fun h => by simp [sessionReset] at h
  write := rfl

theorem header_pending {cs : ConnectSession} (hs : cs.sessionStat = .ssRequest)
    (h : HeaderState cs) : pendingBytes cs = cs.header.take cs.readHeaderLen := by
  simp [pendingBytes, hs, h.msg_len]

theorem message_pending {cs : ConnectSession} {buf : Bytes} (hs : cs.sessionStat = .ssRequest)
    (h : MessageState cs) (hb : cs.readBuf = some buf) :
    pendingBytes cs = cs.header.take 10++buf.take cs.readMsgLen := by
  simp [pendingBytes, hs, h.header_len, hb]

/-- The header read asks for a positive number of bytes that fit, and the
terminator is written inside the eleven cells. -/
theorem read_header_eq {cs : ConnectSession} (hc : cs.header.length = 11)
    (h : HeaderState cs) (input : Bytes) :
    ∃ header, readHeader cs input =
        .ok ({ cs with
          header := header
          readHeaderLen := cs.readHeaderLen+(input.take (10-cs.readHeaderLen)).length },
          input.drop (10-cs.readHeaderLen)) ∧
      header.length = 11 ∧
      header.take (cs.readHeaderLen+(input.take (10-cs.readHeaderLen)).length) =
        cs.header.take cs.readHeaderLen++input.take (10-cs.readHeaderLen) := by
  have hr := h.header_len
  have hsub : u32Sub messageHeaderLen cs.readHeaderLen = 10-cs.readHeaderLen :=
    u32_sub_small (by simp only [messageHeaderLen]; omega) (by decide)
  have hgot : (input.take (10-cs.readHeaderLen)).length ≤ 10-cs.readHeaderLen := by simp
  set got := input.take (10-cs.readHeaderLen) with hgdef
  have h1 : cs.readHeaderLen+got.length ≤ cs.header.length := by omega
  have hl1 := store_length h1
  have ht1 := store_take h1
  set header := cs.header.take cs.readHeaderLen++got++
    cs.header.drop (cs.readHeaderLen+got.length) with hdef
  have h2 : cs.readHeaderLen+got.length+([0] : Bytes).length ≤ header.length := by
    simp only [List.length_singleton]; omega
  refine ⟨header.take (cs.readHeaderLen+got.length)++[0]++
    header.drop (cs.readHeaderLen+got.length+([0] : Bytes).length),?_,?_,?_⟩
  · simp only [readHeader, hsub, ← hgdef, store_at_ok h1, ← hdef,
      u32_small (show cs.readHeaderLen+got.length < 2^32 by omega), store_at_ok h2]
  · rw [store_length h2]; omega
  · rw [List.append_assoc, List.take_left' (by simp; omega), ht1]

/-- The session behind a good header, with a fresh buffer for the body. -/
def openMessage (cs : ConnectSession) : ConnectSession :=
  { cs with
    eid := tagOf wire (cs.header.take 10)
    msgLen := lenOf wire (cs.header.take 10)
    readBuf := some (List.replicate (lenOf wire (cs.header.take 10)) 0)
    reqStat := .msReadMessage
    readMsgLen := 0 }

theorem open_message_state {cs : ConnectSession} (hr : cs.readHeaderLen = 10)
    (hg : GoodHeader wire (cs.header.take 10)) : MessageState (openMessage cs) where
  header_len := hr
  good := hg
  tag := rfl
  len := rfl
  buffer := ⟨_,rfl,by simp [openMessage]⟩
  room := hg.2.1

theorem open_message_pending {cs : ConnectSession} (hs : cs.sessionStat = .ssRequest)
    (hr : cs.readHeaderLen = 10) : pendingBytes (openMessage cs) = cs.header.take 10 := by
  simp [pendingBytes, openMessage, hs, hr]

theorem check_header_eq {cs : ConnectSession} (hc : cs.header.length = 11) :
    checkHeader cs =
      if GoodHeader wire (cs.header.take 10) then some (openMessage cs) else none := by
  have ht : tagOf wire (cs.header.take 10) = read ((cs.header.drop 4).take 2) := by
    simp [wire_tag, List.drop_take, List.take_take]
  have hl : lenOf wire (cs.header.take 10) = read ((cs.header.drop 6).take 4) := by
    simp [wire_len, List.drop_take, List.take_take]
  have hlt : read ((cs.header.drop 6).take 4) < 2^32 := by
    have := read_lt ((cs.header.drop 6).take 4)
    simpa [hc] using this
  simp only [checkHeader, i32_to_u32_as hlt, wire_good, hl, List.take_take]
  by_cases hm : cs.header.take 4 = messageHeader
  · by_cases hn : 1 ≤ read ((cs.header.drop 6).take 4) ∧
        read ((cs.header.drop 6).take 4) ≤ maxMsgLen
    · rw [if_pos hm, if_neg (by omega), if_pos ⟨by simpa using hm,hn⟩, openMessage, ht, hl]
    · rw [if_pos hm, if_pos (by omega), if_neg (by rintro ⟨-,h⟩; exact hn h)]
  · rw [if_neg hm, if_neg (by rintro ⟨h,-⟩; exact hm (by simpa using h))]

def dispatchFrame (pb : Protobuf) (arg : Addr) (cs : ConnectSession) (f : Frame)
    (rest : Bytes) : Except Fault Callback :=
  match parseEvent pb (some f.payload) f.len f.tag with
  | .error e => .error e
  | .ok none => .ok (.free (some f))
  | .ok (some ev) => .ok (.enqueue cs rest f (ev.setArgs (some arg)))

/-- The callback's result is the one the frame reader prescribes for the held
bytes followed by the input buffer. -/
def Refines (pb : Protobuf) (arg : Addr) (bytes : Bytes) (result : Except Fault Callback) : Prop :=
  match readFrame wire bytes with
  | .bad => result = .ok (.free none)
  | .more => ∃ cs, result = .ok (.keep cs []) ∧ ReadState cs ∧
      cs.sessionStat = .ssRequest ∧ pendingBytes cs = bytes
  | .complete f rest => ∃ cs, ReadState cs ∧ cs.sessionStat = .ssResponse ∧
      result = dispatchFrame pb arg cs f rest

def messagePhase (pb : Protobuf) (arg : Addr) (cs : ConnectSession) (input : Bytes) :
    Except Fault Callback :=
  if cs.reqStat = .msReadMessage ∧ 0 < input.length then readMessage pb arg cs input
  else .ok (.keep cs input)

theorem handle_request_eq (pb : Protobuf) (arg : Addr) (cs : ConnectSession) (input : Bytes)
    (hs : cs.sessionStat = .ssRequest) :
    handleRequest pb arg cs input = match headerPhase cs input with
      | .error f => .error f
      | .ok none => .ok (.free none)
      | .ok (some (cs, input)) => messagePhase pb arg cs input := by
  simp only [handleRequest, hs, ne_eq, not_true_eq_false, if_false]
  rfl

/-- The body read asks for the missing bytes only, and stores them inside the
buffer that the header announced. -/
theorem read_message_eq (pb : Protobuf) (arg : Addr) {cs : ConnectSession}
    (h : MessageState cs) (hlim : cs.msgLen ≤ maxMsgLen) {buf : Bytes}
    (hb : cs.readBuf = some buf) (hlen : buf.length = cs.msgLen) (input : Bytes) :
    ∃ body, body.length = cs.msgLen ∧
      body.take (cs.readMsgLen+(input.take (cs.msgLen-cs.readMsgLen)).length) =
        buf.take cs.readMsgLen++input.take (cs.msgLen-cs.readMsgLen) ∧
      readMessage pb arg cs input =
        if cs.msgLen ≤ cs.readMsgLen+input.length then
          dispatchFrame pb arg
            { cs with sessionStat := .ssResponse, readBuf := none, readMsgLen := 0 }
            ⟨cs.eid, cs.msgLen, body⟩ (input.drop (cs.msgLen-cs.readMsgLen))
        else .ok (.keep { cs with
          readBuf := some body
          readMsgLen := cs.readMsgLen+input.length } []) := by
  have hroom := h.room
  have hmax : maxMsgLen < 2^32 := by decide
  have hsub : u32Sub cs.msgLen cs.readMsgLen = cs.msgLen-cs.readMsgLen :=
    u32_sub_small (by omega) (by omega)
  have hgl : (input.take (cs.msgLen-cs.readMsgLen)).length =
      min (cs.msgLen-cs.readMsgLen) input.length := List.length_take
  set got := input.take (cs.msgLen-cs.readMsgLen) with hg
  have hst : cs.readMsgLen+got.length ≤ buf.length := by omega
  have hbl := store_length hst
  have hbt := store_take hst
  set body := buf.take cs.readMsgLen++got++buf.drop (cs.readMsgLen+got.length) with hbody
  refine ⟨body,hbl.trans hlen,hbt,?_⟩
  have hu : u32 (cs.readMsgLen+got.length) = cs.readMsgLen+got.length := u32_small (by omega)
  have hread : readMessage pb arg cs input = finishMessage pb arg cs body
      (cs.readMsgLen+got.length) (input.drop (cs.msgLen-cs.readMsgLen)) := by
    rw [readMessage, hb, hsub, ← hg, hu]
    simp only [store_at_ok hst, ← hbody]
  rw [hread, finishMessage]
  by_cases hd : cs.msgLen ≤ cs.readMsgLen+input.length
  · have hfull : cs.readMsgLen+got.length = cs.msgLen := by omega
    have htake : body.take cs.msgLen = body := List.take_of_length_le (by omega)
    simp only [hfull, if_pos hd, if_true, htake, dispatchFrame]
    cases parseEvent pb (some body) cs.msgLen cs.eid with
    | error e => rfl
    | ok ev => cases ev <;> rfl
  · have hshort : got.length = input.length := by omega
    rw [if_neg (by omega), if_neg hd, hshort, List.drop_of_length_le (by omega)]

theorem message_frame {cs : ConnectSession} {buf : Bytes} (hc : cs.header.length = 11)
    (hs : cs.sessionStat = .ssRequest) (h : MessageState cs) (hb : cs.readBuf = some buf)
    (hlen : buf.length = cs.msgLen) (input : Bytes) :
    readFrame wire (pendingBytes cs++input) =
      if cs.msgLen ≤ cs.readMsgLen+input.length then
        .complete ⟨cs.eid, cs.msgLen,
          buf.take cs.readMsgLen++input.take (cs.msgLen-cs.readMsgLen)⟩
          (input.drop (cs.msgLen-cs.readMsgLen))
      else .more := by
  have hroom := h.room
  have hhl : (cs.header.take 10).length = headerLen wire := by
    rw [wire_header_len, List.length_take, hc]
    rfl
  have hbr : (buf.take cs.readMsgLen).length = cs.readMsgLen := by simp; omega
  rw [message_pending hs h hb, List.append_assoc, read_header wire hhl,
    if_neg (not_not_intro h.good), ← h.tag, ← h.len, List.take_append, List.drop_append, hbr,
    List.take_of_length_le (show (buf.take cs.readMsgLen).length ≤ cs.msgLen by omega),
    List.drop_of_length_le (show (buf.take cs.readMsgLen).length ≤ cs.msgLen by omega),
    List.nil_append, List.length_append, hbr]
  by_cases hd : cs.msgLen ≤ cs.readMsgLen+input.length
  · rw [if_neg (by omega), if_pos hd]
  · rw [if_pos (by omega), if_neg hd]

theorem message_refines (pb : Protobuf) (arg : Addr) {cs : ConnectSession}
    (hc : cs.header.length = 11) (hw : cs.writeBuf = none) (hs : cs.sessionStat = .ssRequest)
    (hq : cs.reqStat = .msReadMessage) (h : MessageState cs) (input : Bytes) :
    Refines pb arg (pendingBytes cs++input) (messagePhase pb arg cs input) := by
  obtain ⟨buf,hb,hlen⟩ := h.buffer
  have hroom := h.room
  have hlim : cs.msgLen ≤ maxMsgLen := by rw [h.len]; exact h.good.2.2
  obtain ⟨body,hbody,hprev,hread⟩ := read_message_eq pb arg h hlim hb hlen input
  have hframe := message_frame hc hs h hb hlen input
  by_cases hd : cs.msgLen ≤ cs.readMsgLen+input.length
  · have hpos : 0 < input.length := by omega
    have hgot : cs.readMsgLen+(input.take (cs.msgLen-cs.readMsgLen)).length = cs.msgLen := by
      rw [List.length_take]; omega
    rw [hgot, List.take_of_length_le (by omega)] at hprev
    rw [if_pos hd, ← hprev] at hframe
    rw [Refines, hframe, messagePhase, if_pos ⟨hq,hpos⟩, hread, if_pos hd]
    exact ⟨{ cs with sessionStat := .ssResponse, readBuf := none, readMsgLen := 0 },
      ⟨hc,fun hx => by simp at hx,fun _ => ⟨rfl,h.header_len⟩,hw⟩,rfl,rfl⟩
  · rw [if_neg hd] at hframe
    rw [Refines, hframe, messagePhase]
    by_cases hpos : 0 < input.length
    · rw [if_pos ⟨hq,hpos⟩, hread, if_neg hd]
      have hall : input.take (cs.msgLen-cs.readMsgLen) = input :=
        List.take_of_length_le (by omega)
      rw [hall] at hprev
      refine ⟨_,rfl,⟨hc,fun _ => Or.inr ⟨hq,⟨h.header_len,h.good,h.tag,h.len,
        ⟨body,rfl,hbody⟩,by simp only; omega⟩⟩,fun hx => by simp [hs] at hx,hw⟩,hs,?_⟩
      rw [message_pending hs h hb, List.append_assoc, ← hprev]
      simp [pendingBytes, hs, h.header_len]
    · have hnil : input = [] := List.eq_nil_of_length_eq_zero (by omega)
      subst hnil
      rw [if_neg (by simp), List.append_nil]
      exact ⟨cs,rfl,⟨hc,fun _ => Or.inr ⟨hq,h⟩,fun hx => by simp [hs] at hx,hw⟩,hs,rfl⟩

theorem header_refines (pb : Protobuf) (arg : Addr) {cs : ConnectSession}
    (hc : cs.header.length = 11) (hw : cs.writeBuf = none) (hs : cs.sessionStat = .ssRequest)
    (hq : cs.reqStat = .msReadHeader) (h : HeaderState cs) (input : Bytes) :
    Refines pb arg (pendingBytes cs++input) (handleRequest pb arg cs input) := by
  have hr := h.header_len
  obtain ⟨header,hread,hl,htake⟩ := read_header_eq hc h input
  have hph : (cs.header.take cs.readHeaderLen).length = cs.readHeaderLen := by simp; omega
  rw [handle_request_eq pb arg cs input hs, headerPhase, if_pos hq, hread, header_pending hs h]
  simp only
  by_cases hfull : 10 ≤ cs.readHeaderLen+input.length
  · have hgot : cs.readHeaderLen+(input.take (10-cs.readHeaderLen)).length = messageHeaderLen := by
      rw [List.length_take, messageHeaderLen]; omega
    have hten : messageHeaderLen = 10 := rfl
    rw [hgot, hten] at htake
    have hsplit : cs.header.take cs.readHeaderLen++input =
        header.take 10++input.drop (10-cs.readHeaderLen) := by
      rw [htake, List.append_assoc, List.take_append_drop]
    have hhl : (header.take 10).length = headerLen wire := by
      rw [wire_header_len, List.length_take, hl]
      rfl
    rw [hgot, if_pos rfl, check_header_eq hl, hsplit]
    simp only
    by_cases hg : GoodHeader wire (header.take 10)
    · rw [if_pos hg, Option.map_some, ← @open_message_pending
        { cs with header := header, readHeaderLen := messageHeaderLen } hs rfl]
      exact @message_refines pb arg (openMessage
        { cs with header := header, readHeaderLen := messageHeaderLen }) hl hw hs rfl
        (open_message_state rfl hg) _
    · rw [if_neg hg, Refines, read_header wire hhl, if_pos hg]
      rfl
  · have hin : input.take (10-cs.readHeaderLen) = input := List.take_of_length_le (by omega)
    have hrest : input.drop (10-cs.readHeaderLen) = [] := List.drop_of_length_le (by omega)
    rw [hin] at htake ⊢
    rw [if_neg (by simp only [messageHeaderLen]; omega), Refines,
      read_short wire (by rw [List.length_append, hph, wire_header_len]; omega), hrest]
    simp only [messagePhase, hq, reduceCtorEq, false_and, if_false]
    refine ⟨_,rfl,⟨hl,fun _ => Or.inl ⟨rfl,⟨by simp only; omega,h.msg_len,h.buffer⟩⟩,
      fun hx => by simp [hs] at hx,hw⟩,hs,?_⟩
    simp [pendingBytes, hs, htake, h.msg_len]

/-- The callback in a session that waits for a request. -/
theorem handle_request_refines (pb : Protobuf) (arg : Addr) {cs : ConnectSession}
    (h : ReadState cs) (hs : cs.sessionStat = .ssRequest) (input : Bytes) :
    Refines pb arg (pendingBytes cs++input) (handleRequest pb arg cs input) := by
  rcases h.request hs with ⟨hq,hh⟩ | ⟨hq,hm⟩
  · exact header_refines pb arg h.header_cells h.write hs hq hh input
  · rw [handle_request_eq pb arg cs input hs, headerPhase, if_neg (by simp [hq])]
    exact message_refines pb arg h.header_cells h.write hs hq hm input

/-- While a response is awaited the callback leaves every byte alone. -/
theorem handle_request_waiting (pb : Protobuf) (arg : Addr) (cs : ConnectSession)
    (hs : cs.sessionStat = .ssResponse) (input : Bytes) :
    handleRequest pb arg cs input = .ok (.keep cs input) := by
  simp [handleRequest, hs]

end SharedBike.RequestReader

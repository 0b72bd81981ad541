import SharedBike.DispatchMsgService
import SharedBike.Library.LengthFrames

/-!
# Connection sessions and the callbacks of the network thread

A session is freed together with its buffered socket, so a callback returns
either the session it keeps with the bytes left in the input buffer, or the
fact that both are gone.
-/

set_option autoImplicit false

namespace SharedBike.NetworkInterface
open LittleEndian LengthFrames
open SharedBike.Globals SharedBike.BikeProtocol SharedBike.Events SharedBike.DispatchMsgService

def messageHeaderLen : ℕ := 10

def messageHeader : Bytes := ascii "FBEB"

inductive MessageStatus where
  | msReadHeader
  | msReadMessage
  | msReadDone
  | msSending
  deriving DecidableEq, Repr

inductive SessionStatus where
  | ssRequest
  | ssResponse
  deriving DecidableEq, Repr

structure ConnectSession where
  sessionStat : SessionStatus
  request : Option IEvent
  reqStat : MessageStatus
  response : Option IEvent
  eid : ℕ
  msgLen : ℕ
  readMsgLen : ℕ
  readBuf : Option Bytes
  header : Bytes
  readHeaderLen : ℕ
  writeBuf : Option Bytes
  deriving DecidableEq, Repr

/-- All fields zero: both enumerations start with their first value. -/
def sessionInit : ConnectSession where
  sessionStat := .ssRequest
  request := none
  reqStat := .msReadHeader
  response := none
  eid := 0
  msgLen := 0
  readMsgLen := 0
  readBuf := none
  header := List.replicate (messageHeaderLen+1) 0
  readHeaderLen := 0
  writeBuf := none

def sessionReset (cs : ConnectSession) : ConnectSession :=
  { cs with
    readBuf := none
    writeBuf := none
    sessionStat := .ssRequest
    reqStat := .msReadHeader
    msgLen := 0
    readMsgLen := 0
    readHeaderLen := 0 }

/-- How a callback leaves the session; `call` is what `parseEvent` was given. -/
inductive Callback where
  | keep (cs : ConnectSession) (input : Bytes)
  | enqueue (cs : ConnectSession) (input : Bytes) (call : Frame) (ev : IEvent)
  | free (call : Option Frame)
  deriving DecidableEq, Repr

def readHeader (cs : ConnectSession) (input : Bytes) : Except Fault (ConnectSession × Bytes) :=
  let got := input.take (u32Sub messageHeaderLen cs.readHeaderLen)
  let len := u32 (cs.readHeaderLen+got.length)
  match storeAt cs.header cs.readHeaderLen got with
  | .error f => .error f
  | .ok header => match storeAt header len [0] with
    | .error f => .error f
    | .ok header => .ok ({ cs with header := header, readHeaderLen := len },
        input.drop (u32Sub messageHeaderLen cs.readHeaderLen))

/-- The magic word, the 16-bit identifier and the length, which is read as a
signed number and kept in an unsigned field. -/
def checkHeader (cs : ConnectSession) : Option ConnectSession :=
  if cs.header.take 4 = messageHeader then
    let eid := read ((cs.header.drop 4).take 2)
    let msgLen := i32ToU32 (asI32 (read ((cs.header.drop 6).take 4)))
    if msgLen < 1 ∨ maxMsgLen < msgLen then none
    else some { cs with
      eid := eid
      msgLen := msgLen
      readBuf := some (List.replicate msgLen 0)
      reqStat := .msReadMessage
      readMsgLen := 0 }
  else none

def headerPhase (cs : ConnectSession) (input : Bytes) :
    Except Fault (Option (ConnectSession × Bytes)) :=
  if cs.reqStat = .msReadHeader then
    match readHeader cs input with
    | .error f => .error f
    | .ok (cs, input) =>
      if cs.readHeaderLen = messageHeaderLen then
        .ok ((checkHeader cs).map fun cs => (cs, input))
      else .ok (some (cs, input))
  else .ok (some (cs, input))

/-- The body part after its read: a full buffer is parsed and released. -/
def finishMessage (pb : Protobuf) (arg : Addr) (cs : ConnectSession) (buf : Bytes) (len : ℕ)
    (input : Bytes) : Except Fault Callback :=
  if cs.msgLen = len then
    match parseEvent pb (some buf) len cs.eid with
    | .error f => .error f
    | .ok (some ev) =>
      .ok (.enqueue { cs with sessionStat := .ssResponse, readBuf := none, readMsgLen := 0 }
        input ⟨cs.eid, len, buf.take len⟩ (ev.setArgs (some arg)))
    | .ok none => .ok (.free (some ⟨cs.eid, len, buf.take len⟩))
  else .ok (.keep { cs with readBuf := some buf, readMsgLen := len } input)

def readMessage (pb : Protobuf) (arg : Addr) (cs : ConnectSession) (input : Bytes) :
    Except Fault Callback :=
  match cs.readBuf with
  | none => .error .nullPointer
  | some buf =>
    match storeAt buf cs.readMsgLen (input.take (u32Sub cs.msgLen cs.readMsgLen)) with
    | .error f => .error f
    | .ok buf => finishMessage pb arg cs buf
        (u32 (cs.readMsgLen+(input.take (u32Sub cs.msgLen cs.readMsgLen)).length))
        (input.drop (u32Sub cs.msgLen cs.readMsgLen))

def handleRequest (pb : Protobuf) (arg : Addr) (cs : ConnectSession) (input : Bytes) :
    Except Fault Callback :=
  if cs.sessionStat ≠ .ssRequest then .ok (.keep cs input)
  else match headerPhase cs input with
    | .error f => .error f
    | .ok none => .ok (.free none)
    | .ok (some (cs, input)) =>
      if cs.reqStat = .msReadMessage ∧ 0 < input.length then readMessage pb arg cs input
      else .ok (.keep cs input)

inductive Sent where
  | wrote (cs : ConnectSession) (bytes : Bytes)
  | freed (request : Option IEvent)
  deriving DecidableEq, Repr

def sendResponseMsg (cs : ConnectSession) : Except Fault Sent :=
  if cs.response = none then .ok (.freed cs.request)
  else match cs.writeBuf with
    | none => .error .nullPointer
    | some buf =>
      let size := u32 (cs.msgLen+messageHeaderLen)
      if size ≤ buf.length then .ok (.wrote (sessionReset cs) (buf.take size))
      else .error .outOfBounds

def responseFrame (pb : Protobuf) (ev : IEvent) (eid : ℕ) : Bytes :=
  messageHeader++write 2 eid++write 4 (ev.byteSize pb)++ev.serializeToArray pb

def assembleResponse (pb : Protobuf) (cs : ConnectSession) (ev : IEvent) (eid : EventId) :
    Except Fault Sent :=
  sendResponseMsg { cs with
    response := some ev
    msgLen := u32 (ev.byteSize pb)
    writeBuf := some (responseFrame pb ev eid.code) }

/-- One event taken by `handleAllResponseEvent`: only the three recognised
identifiers follow the session pointer, any other event is dropped. -/
def handleResponseEvent (pb : Protobuf) (ev : IEvent) (session : Except Fault ConnectSession) :
    Except Fault (Option Sent) :=
  if ev.eid = EventId.getMobileCodeRsp.code then
    session.bind fun cs => (assembleResponse pb cs ev .getMobileCodeRsp).map some
  else if ev.eid = EventId.loginRsp.code then
    session.bind fun cs => (assembleResponse pb cs ev .loginRsp).map some
  else if ev.eid = EventId.exitRsp.code then
    session.bind fun cs => (sendResponseMsg { cs with response := some ev }).map some
  else .ok none

theorem response_frame_length (pb : Protobuf) (ev : IEvent) (eid : ℕ) :
    (responseFrame pb ev eid).length = ev.byteSize pb+messageHeaderLen := by
  have hm : messageHeader.length = 4 := rfl
  simp only [responseFrame, List.length_append, hm, write_length, messageHeaderLen,
    IEvent.byteSize]
  omega

/-- One assembled response is one whole frame and a session ready to read. -/
theorem assemble_response_eq (pb : Protobuf) (cs : ConnectSession) (ev : IEvent)
    (eid : EventId) :
    assembleResponse pb cs ev eid =
      .ok (.wrote (sessionReset { cs with response := some ev })
        (responseFrame pb ev eid.code)) := by
  have hs := byte_size_lt pb ev
  have hl := response_frame_length pb ev eid.code
  have hu : u32 (u32 (ev.byteSize pb)+messageHeaderLen) =
      (responseFrame pb ev eid.code).length := by
    rw [hl, u32_small (show ev.byteSize pb < 2^32 by omega), u32_small]
    simp only [messageHeaderLen]; omega
  simp only [assembleResponse, sendResponseMsg, reduceCtorEq, if_false, hu, le_refl, if_true,
    List.take_length]
  rfl

/-- The two response kinds; the exit event is recognised but has no frame. -/
def HasFrame (ev : IEvent) : Prop :=
  ev.eid = EventId.getMobileCodeRsp.code ∨ ev.eid = EventId.loginRsp.code

instance (ev : IEvent) : Decidable (HasFrame ev) := by unfold HasFrame; infer_instance

def Recognised (ev : IEvent) : Prop := HasFrame ev ∨ ev.eid = EventId.exitRsp.code

theorem handle_response_frame (pb : Protobuf) {ev : IEvent} (h : HasFrame ev)
    (cs : ConnectSession) :
    handleResponseEvent pb ev (.ok cs) =
      .ok (some (.wrote (sessionReset { cs with response := some ev })
        (responseFrame pb ev ev.eid))) := by
  rcases h with h | h
  · rw [handleResponseEvent, if_pos h, h]
    simp only [Except.bind, assemble_response_eq, Except.map]
  · rw [handleResponseEvent, if_neg (by rw [h]; decide), if_pos h, h]
    simp only [Except.bind, assemble_response_eq, Except.map]

/-- The exit event of a session without a write buffer reads a null pointer. -/
theorem handle_response_exit (pb : Protobuf) {ev : IEvent} (h : ev.eid = EventId.exitRsp.code)
    {cs : ConnectSession} (hw : cs.writeBuf = none) :
    handleResponseEvent pb ev (.ok cs) = .error .nullPointer := by
  rw [handleResponseEvent, if_neg (by rw [h]; decide), if_neg (by rw [h]; decide), if_pos h]
  simp only [Except.bind, sendResponseMsg, reduceCtorEq, if_false, hw, Except.map]

theorem handle_response_dropped (pb : Protobuf) {ev : IEvent} (h : ¬ Recognised ev)
    (session : Except Fault ConnectSession) :
    handleResponseEvent pb ev session = .ok none := by
  simp only [Recognised, HasFrame, not_or] at h
  rw [handleResponseEvent, if_neg h.1.1, if_neg h.1.2, if_neg h.2]

/-- A recognised event is answered on its session. -/
theorem handle_response_sent (pb : Protobuf) {ev : IEvent} (h : Recognised ev)
    (cs : ConnectSession) :
    ∃ r : Except Fault Sent, handleResponseEvent pb ev (.ok cs) = r.map some := by
  unfold handleResponseEvent
  split_ifs with h1 h2 h3
  · exact ⟨_,rfl⟩
  · exact ⟨_,rfl⟩
  · exact ⟨_,rfl⟩
  · exact absurd h (by simp [Recognised, HasFrame, h1, h2, h3])

theorem handle_response_fault (pb : Protobuf) {ev : IEvent} (h : Recognised ev) (f : Fault) :
    handleResponseEvent pb ev (.error f) = .error f := by
  unfold handleResponseEvent
  split_ifs <;> first | rfl | (simp_all [Recognised, HasFrame])

end SharedBike.NetworkInterface

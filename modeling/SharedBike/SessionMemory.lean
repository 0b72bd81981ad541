import SharedBike.NetworkInterface
import SharedBike.Library.GuardedRuns

/-!
# Sessions, buffers and buffered sockets in memory

The callbacks of the network thread with the pointers they follow. Sessions,
character buffers and buffered sockets are made and deleted one by one; a
pointer to what was deleted faults when it is followed or deleted again. Events
are values here: the network thread deletes none of them.
-/

set_option autoImplicit false

namespace SharedBike.SessionMemory
open LittleEndian GuardedRuns
open SharedBike.Globals SharedBike.BikeProtocol SharedBike.Events SharedBike.DispatchMsgService
open SharedBike.NetworkInterface (MessageStatus SessionStatus messageHeader messageHeaderLen
  responseFrame)

/-- `ConnectSession` with the pointers that it holds. -/
structure Session where
  sessionStat : SessionStatus
  request : Option IEvent
  reqStat : MessageStatus
  response : Option IEvent
  eid : ℕ
  bev : Addr
  msgLen : ℕ
  readMsgLen : ℕ
  readBuf : Option Addr
  header : Bytes
  readHeaderLen : ℕ
  writeBuf : Option Addr

structure Memory where
  sessions : Addr → Option Session
  chars : Addr → Option Bytes
  bevs : Addr → Option Bytes

def Memory.empty : Memory := ⟨fun _ => none, fun _ => none, fun _ => none⟩

section Pointers

variable (m : Memory)

def Memory.session (a : Addr) : Except Fault Session :=
  match m.sessions a with
  | some cs => .ok cs
  | none => .error .useAfterFree

def Memory.text (p : Addr) : Except Fault Bytes :=
  match m.chars p with
  | some buf => .ok buf
  | none => .error .useAfterFree

def Memory.input (b : Addr) : Except Fault Bytes :=
  match m.bevs b with
  | some input => .ok input
  | none => .error .useAfterFree

def Memory.setSession (a : Addr) (cs : Session) : Memory :=
  { m with sessions := Function.update m.sessions a (some cs) }

def Memory.setChars (p : Addr) (buf : Option Bytes) : Memory :=
  { m with chars := Function.update m.chars p buf }

def Memory.setInput (b : Addr) (input : Option Bytes) : Memory :=
  { m with bevs := Function.update m.bevs b input }

/-- Following a pointer that may be null. -/
def follow : Option Addr → Except Fault Addr
  | some q => .ok q
  | none => .error .nullPointer

/-- `delete[]`, which a null pointer is allowed to. -/
def Memory.deleteChars : Option Addr → Except Fault Memory
  | none => .ok m
  | some p => (m.text p).map fun _ => m.setChars p none

def Memory.freeBev (b : Addr) : Except Fault Memory :=
  (m.input b).map fun _ => m.setInput b none

end Pointers

/-- All fields zero, but for the socket. -/
def sessionInit (bev : Addr) : Session where
  sessionStat := .ssRequest
  request := none
  reqStat := .msReadHeader
  response := none
  eid := 0
  bev := bev
  msgLen := 0
  readMsgLen := 0
  readBuf := none
  header := List.replicate (messageHeaderLen+1) 0
  readHeaderLen := 0
  writeBuf := none

def sessionReset (m : Memory) (a : Addr) : Except Fault Memory :=
  (m.session a).bind fun cs =>
    (m.deleteChars cs.readBuf).bind fun m =>
      (m.deleteChars cs.writeBuf).map fun m => m.setSession a { cs with
        readBuf := none
        writeBuf := none
        sessionStat := .ssRequest
        reqStat := .msReadHeader
        msgLen := 0
        readMsgLen := 0
        readHeaderLen := 0 }

def sessionFree (m : Memory) (a : Addr) : Except Fault Memory :=
  (m.session a).bind fun cs =>
    (m.deleteChars cs.readBuf).bind fun m =>
      (m.deleteChars cs.writeBuf).map fun m =>
        { m with sessions := Function.update m.sessions a none }

/-- `bufferevent_free` and then `session_free`, as the callbacks end a connection. -/
def closeSession (m : Memory) (a : Addr) : Except Fault Memory :=
  (m.session a).bind fun cs => (m.freeBev cs.bev).bind fun m => sessionFree m a

def listenerCb (m : Memory) (a b : Addr) : Memory :=
  (m.setInput b (some [])).setSession a (sessionInit b)

/-- How a callback leaves the memory. -/
inductive Callback where
  | keep (m : Memory)
  | enqueue (m : Memory) (ev : IEvent)
  | free (m : Memory)

def readHeader (m : Memory) (a : Addr) : Except Fault Memory :=
  (m.session a).bind fun cs => (m.input cs.bev).bind fun input =>
    let got := input.take (u32Sub messageHeaderLen cs.readHeaderLen)
    let len := u32 (cs.readHeaderLen+got.length)
    (storeAt cs.header cs.readHeaderLen got).bind fun header =>
      (storeAt header len [0]).map fun header =>
        (m.setSession a { cs with header := header, readHeaderLen := len }).setInput cs.bev
          (some (input.drop (u32Sub messageHeaderLen cs.readHeaderLen)))

/-- The new buffer is at `p`. -/
def checkHeader (m : Memory) (a p : Addr) : Except Fault Callback :=
  (m.session a).bind fun cs =>
    if cs.header.take 4 = messageHeader then
      let eid := read ((cs.header.drop 4).take 2)
      let msgLen := i32ToU32 (asI32 (read ((cs.header.drop 6).take 4)))
      if msgLen < 1 ∨ maxMsgLen < msgLen then
        (closeSession (m.setSession a { cs with eid := eid, msgLen := msgLen }) a).map .free
      else .ok (.keep ((m.setChars p (some (List.replicate msgLen 0))).setSession a { cs with
        eid := eid
        msgLen := msgLen
        readBuf := some p
        reqStat := .msReadMessage
        readMsgLen := 0 }))
    else (closeSession m a).map .free

def headerPhase (m : Memory) (a p : Addr) : Except Fault Callback :=
  (m.session a).bind fun cs =>
    if cs.reqStat = .msReadHeader then
      (readHeader m a).bind fun m => (m.session a).bind fun cs =>
        if cs.readHeaderLen = messageHeaderLen then checkHeader m a p else .ok (.keep m)
    else .ok (.keep m)

def finishMessage (pb : Protobuf) (m : Memory) (a : Addr) : Except Fault Callback :=
  (m.session a).bind fun cs =>
    if cs.msgLen = cs.readMsgLen then
      (follow cs.readBuf).bind fun q => (m.text q).bind fun buf =>
        (parseEvent pb (some buf) cs.readMsgLen cs.eid).bind fun ev =>
          (m.deleteChars cs.readBuf).bind fun m =>
            let m := m.setSession a { cs with
              sessionStat := .ssResponse, readBuf := none, readMsgLen := 0 }
            match ev with
            | some ev => .ok (.enqueue m (ev.setArgs (some a)))
            | none => (closeSession m a).map .free
    else .ok (.keep m)

def readMessage (pb : Protobuf) (m : Memory) (a : Addr) : Except Fault Callback :=
  (m.session a).bind fun cs => (follow cs.readBuf).bind fun q =>
    (m.text q).bind fun buf => (m.input cs.bev).bind fun input =>
      let got := input.take (u32Sub cs.msgLen cs.readMsgLen)
      (storeAt buf cs.readMsgLen got).bind fun buf =>
        finishMessage pb (((m.setChars q (some buf)).setInput cs.bev
          (some (input.drop (u32Sub cs.msgLen cs.readMsgLen)))).setSession a
            { cs with readMsgLen := u32 (cs.readMsgLen+got.length) }) a

def bodyPhase (pb : Protobuf) (m : Memory) (a : Addr) : Except Fault Callback :=
  (m.session a).bind fun cs => (m.input cs.bev).bind fun input =>
    if cs.reqStat = .msReadMessage ∧ 0 < input.length then readMessage pb m a
    else .ok (.keep m)

def handleRequest (pb : Protobuf) (m : Memory) (a p : Addr) : Except Fault Callback :=
  (m.session a).bind fun cs =>
    if cs.sessionStat ≠ .ssRequest then .ok (.keep m)
    else (headerPhase m a p).bind fun r => match r with
      | .keep m => bodyPhase pb m a
      | r => .ok r

/-- The bytes written to the socket, or nothing if the connection is ended. -/
def sendResponseMsg (m : Memory) (a : Addr) : Except Fault (Memory × Option Bytes) :=
  (m.session a).bind fun cs =>
    if cs.response = none then (closeSession m a).map fun m => (m, none)
    else (follow cs.writeBuf).bind fun q => (m.text q).bind fun buf =>
      let size := u32 (cs.msgLen+messageHeaderLen)
      if size ≤ buf.length then (sessionReset m a).map fun m => (m, some (buf.take size))
      else .error .outOfBounds

/-- The write buffer is at `p`. -/
def assembleResponse (pb : Protobuf) (m : Memory) (a p : Addr) (ev : IEvent) (eid : EventId) :
    Except Fault (Memory × Option Bytes) :=
  (m.session a).bind fun cs =>
    sendResponseMsg ((m.setChars p (some (responseFrame pb ev eid.code))).setSession a { cs with
      response := some ev
      msgLen := u32 (ev.byteSize pb)
      writeBuf := some p }) a

/-- The session pointer that an event carries. -/
def argsOf (ev : IEvent) : Except Fault Addr :=
  match ev.args with
  | some a => .ok a
  | none => .error .wildPointer

def handleResponseEvent (pb : Protobuf) (m : Memory) (p : Addr) (ev : IEvent) :
    Except Fault (Memory × Option Bytes) :=
  if ev.eid = EventId.getMobileCodeRsp.code then
    (argsOf ev).bind fun a => assembleResponse pb m a p ev .getMobileCodeRsp
  else if ev.eid = EventId.loginRsp.code then
    (argsOf ev).bind fun a => assembleResponse pb m a p ev .loginRsp
  else if ev.eid = EventId.exitRsp.code then
    (argsOf ev).bind fun a => (m.session a).bind fun cs =>
      sendResponseMsg (m.setSession a { cs with response := some ev }) a
  else .ok (m, none)

/-- Only finitely many blocks have been made. -/
def Memory.Bounded (m : Memory) : Prop := ∃ n, ∀ p, n ≤ p → m.chars p = none ∧ m.bevs p = none

/-- Where `new` finds room: anywhere that is free, also where something was deleted. -/
structure Allocator where
  buffer : Memory → Addr
  socket : Memory → Addr
  buffer_free : ∀ m : Memory, m.Bounded → m.chars (buffer m) = none
  socket_free : ∀ m : Memory, m.Bounded → m.bevs (socket m) = none

inductive Action where
  | accept (a : Addr)
  | arrive (a : Addr) (bytes : Bytes)
  | handleError (a : Addr)
  | respond (ev : IEvent)

def Callback.memory : Callback → Memory
  | .keep m => m
  | .enqueue m _ => m
  | .free m => m

def step (pb : Protobuf) (alloc : Allocator) (m : Memory) :
    Action → Option (Except Fault Memory)
  | .accept a => match m.sessions a with
    | some _ => none
    | none => some (.ok (listenerCb m a (alloc.socket m)))
  | .arrive a bytes => (m.sessions a).map fun cs =>
    (m.input cs.bev).bind fun input =>
      let m := m.setInput cs.bev (some (input++bytes))
      (handleRequest pb m a (alloc.buffer m)).map Callback.memory
  | .handleError a => (m.sessions a).map fun _ => closeSession m a
  | .respond ev => some ((handleResponseEvent pb m (alloc.buffer m) ev).map Prod.fst)

def machine (pb : Protobuf) (alloc : Allocator) : Machine Memory Action Fault := ⟨step pb alloc⟩

end SharedBike.SessionMemory

import SharedBike.NetworkInterface

/-!
# The client's callbacks

The client builds its requests and reads the responses in two buffers of 1024
bytes on its stack, whose cells start with whatever was there before. Each read
callback treats what one read yields as one frame.
-/

set_option autoImplicit false

namespace SharedBike.Client
open LittleEndian SharedBike.Globals SharedBike.BikeProtocol SharedBike.NetworkInterface

def bufferLen : ℕ := 1024

def clientMobile : Bytes := ascii "18266666666"

/-- The typed line up to its last byte, which is overwritten by NUL. -/
def readCmd (typed : Bytes) : Except Fault Bytes :=
  if typed = [] then .error .outOfBounds else .ok (cStr typed.dropLast)

/-- The header and the serialized message are stored in `msg`, and the first
`len+10` bytes of it are written to the server. -/
def assembleRequest (msg : Bytes) (eid : ℕ) (payload : Bytes) : Except Fault Bytes :=
  (storeAt msg 0 messageHeader).bind fun msg =>
    (storeAt msg 4 (write 2 eid)).bind fun msg =>
      (storeAt msg 6 (write 4 payload.length)).bind fun msg =>
        (storeAt msg 10 payload).bind fun msg => .ok (msg.take (payload.length+10))

def sendMr (pb : Protobuf) (msg : Bytes) : Except Fault Bytes :=
  assembleRequest msg 1 (pb.mobileRequest.serializeToArray ⟨clientMobile⟩)

def sendLr (pb : Protobuf) (msg : Bytes) (icode : Int32) : Except Fault Bytes :=
  assembleRequest msg 3 (pb.loginRequest.serializeToArray ⟨clientMobile, icode⟩)

def cmdMsgCb (pb : Protobuf) (msg : Bytes) (icode : Int32) (typed : Bytes) :
    Except Fault (Option Bytes) :=
  (readCmd typed).bind fun cmd =>
    if cmd = ascii "send_mr" then (sendMr pb msg).map some
    else if cmd = ascii "send_lr" then (sendLr pb msg icode).map some
    else .ok none

inductive Response where
  | mobileResponse (m : MobileResponse)
  | loginResponse (m : LoginResponse)
  deriving DecidableEq, Repr

structure Handled where
  eid : ℕ
  len : ℤ
  response : Response
  deriving DecidableEq, Repr

inductive Reaction where
  | exit
  | next (icode : Int32) (handled : Option Handled)
  deriving DecidableEq, Repr

/-- The result of the parse is not looked at. A negative length counts as a
huge one. -/
def parseBody {M : Type} (c : Codec M) (msg : Bytes) (len : ℤ) : Except Fault M :=
  if len < 0 ∨ msg.length < 10+len then .error .outOfBounds
  else .ok ((c.parseFromArray ((msg.drop 10).take len.toNat)).getD
    (c.leftover ((msg.drop 10).take len.toNat)))

/-- The bytes of one read and the terminator behind them. -/
def storeRead (msg got : Bytes) : Except Fault Bytes :=
  (storeAt msg 0 got).bind fun msg => storeAt msg got.length [0]

def react (pb : Protobuf) (icode : Int32) (msg : Bytes) : Except Fault Reaction :=
  if msg.take 4 = messageHeader then
    let eid := read ((msg.drop 4).take 2)
    let len := asI32 (read ((msg.drop 6).take 4))
    if eid = 2 then (parseBody pb.mobileResponse msg len).map fun mr =>
      .next mr.icode (some ⟨eid, len, .mobileResponse mr⟩)
    else if eid = 4 then (parseBody pb.loginResponse msg len).map fun lr =>
      .next icode (some ⟨eid, len, .loginResponse lr⟩)
    else .ok (.next icode none)
  else .ok (.next icode none)

/-- One read callback; `got` is what the read yields, at most 1024 bytes. -/
def serverMsgCb (pb : Protobuf) (msg : Bytes) (icode : Int32) (got : Bytes) :
    Except Fault Reaction :=
  if got = [] then .ok .exit else (storeRead msg got).bind (react pb icode)

/-- A request that fits is written whole, header first. -/
theorem assemble_request_eq {msg payload : Bytes} (eid : ℕ) (hm : msg.length = bufferLen)
    (hp : payload.length+10 ≤ bufferLen) :
    assembleRequest msg eid payload =
      .ok (messageHeader++write 2 eid++write 4 payload.length++payload) := by
  have hh : messageHeader.length = 4 := rfl
  have h2 : (write 2 eid).length = 2 := write_length 2 eid
  have h4 : (write 4 payload.length).length = 4 := write_length 4 _
  have hb : bufferLen = 1024 := rfl
  obtain ⟨m1,e1,l1,t1⟩ := store_next (show 0+messageHeader.length ≤ msg.length by omega)
  obtain ⟨m2,e2,l2,t2⟩ := store_next (show 4+(write 2 eid).length ≤ m1.length by omega)
  obtain ⟨m3,e3,l3,t3⟩ := store_next (show 6+(write 4 payload.length).length ≤ m2.length by omega)
  obtain ⟨m4,e4,l4,t4⟩ := store_next (show 10+payload.length ≤ m3.length by omega)
  rw [hh, List.take_zero, List.nil_append] at t1
  rw [h2, show m1.take 4 = messageHeader from t1] at t2
  rw [h4, show m2.take 6 = _ from t2] at t3
  rw [show m3.take 10 = _ from t3, Nat.add_comm] at t4
  simp only [assembleRequest, e1, e2, e3, e4, Except.bind, t4]

/-- A read that leaves a cell free is stored with a terminator behind it. -/
theorem store_terminated {msg got : Bytes} (hm : msg.length = bufferLen)
    (hg : got.length < bufferLen) :
    storeRead msg got = .ok (got++0::msg.drop (got.length+1)) := by
  have h1 : 0+got.length ≤ msg.length := by omega
  have h2 : got.length+([0] : Bytes).length ≤ (got++msg.drop got.length).length := by
    simp only [List.length_append, List.length_drop, List.length_singleton]
    omega
  rw [storeRead, store_at_ok h1, List.take_zero, List.nil_append, Nat.zero_add]
  simp only [Except.bind]
  rw [store_at_ok h2, List.take_left' rfl, List.drop_append]
  simp

theorem terminated_length {msg got : Bytes} (hm : msg.length = bufferLen)
    (hg : got.length < bufferLen) : (got++0::msg.drop (got.length+1)).length = bufferLen := by
  simp only [List.length_append, List.length_cons, List.length_drop]
  omega

theorem store_full {msg got : Bytes} (hm : msg.length = bufferLen)
    (hg : bufferLen ≤ got.length) : storeRead msg got = .error .outOfBounds := by
  by_cases heq : got.length = bufferLen
  · rw [storeRead, store_at_ok (by omega)]
    simp only [Except.bind, storeAt]
    rw [if_neg]
    simp only [List.length_append, List.length_take, List.length_drop, List.length_singleton]
    omega
  · rw [storeRead, storeAt, if_neg (by omega)]
    rfl

/-- After one read the buffer starts with what was read, if it was shorter than
the buffer. -/
theorem store_read_eq {msg got : Bytes} (hm : msg.length = bufferLen)
    (hg : got.length < bufferLen) : ∃ stored tail,
    storeRead msg got = .ok stored ∧ stored = got++tail ∧
      stored.length = bufferLen :=
  ⟨_,_,store_terminated hm hg,rfl,terminated_length hm hg⟩

end SharedBike.Client

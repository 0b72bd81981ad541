import SharedBike.BikeProtocol

/-!
# Internal events

An event carries its identifier, the message it wraps and the session pointer
that the network thread stored in it. A pointer is an address of the session
heap; an event that never met `set_args` has none.
-/

set_option autoImplicit false

namespace SharedBike.Events
open LittleEndian SharedBike.Globals SharedBike.BikeProtocol

abbrev Addr := ℕ

inductive EventMsg where
  | mobileRequest (m : MobileRequest)
  | mobileResponse (m : MobileResponse)
  | loginRequest (m : LoginRequest)
  | loginResponse (m : LoginResponse)
  | none
  deriving DecidableEq, Repr

structure IEvent where
  eid : ℕ
  msg : EventMsg
  args : Option Addr
  deriving DecidableEq, Repr

def IEvent.setArgs (ev : IEvent) (args : Option Addr) : IEvent := { ev with args := args }

def mobileCodeReqEv (mobile : Bytes) : IEvent :=
  ⟨EventId.getMobileCodeReq.code, .mobileRequest ⟨mobile⟩, none⟩

def mobileCodeRspEv (code icode : Int32) : IEvent :=
  ⟨EventId.getMobileCodeRsp.code,
    .mobileResponse ⟨code, icode, some (getReasonByErrorCode code)⟩, none⟩

def exitRspEv : IEvent := ⟨EventId.exitRsp.code, .none, none⟩

def loginReqEv (mobile : Bytes) (icode : Int32) : IEvent :=
  ⟨EventId.loginReq.code, .loginRequest ⟨mobile, icode⟩, none⟩

def loginRspEv (code : Int32) : IEvent :=
  ⟨EventId.loginRsp.code, .loginResponse ⟨code, some (getReasonByErrorCode code)⟩, none⟩

/-- The virtual `SerializeToArray`; the base class writes nothing. -/
def IEvent.serializeToArray (pb : Protobuf) (ev : IEvent) : Bytes :=
  match ev.msg with
  | .mobileRequest m => pb.mobileRequest.serializeToArray m
  | .mobileResponse m => pb.mobileResponse.serializeToArray m
  | .loginRequest m => pb.loginRequest.serializeToArray m
  | .loginResponse m => pb.loginResponse.serializeToArray m
  | .none => []

def IEvent.byteSize (pb : Protobuf) (ev : IEvent) : ℕ := (ev.serializeToArray pb).length

theorem byte_size_lt (pb : Protobuf) (ev : IEvent) : ev.byteSize pb < 2^31 := by
  unfold IEvent.byteSize IEvent.serializeToArray
  split
  · exact pb.mobileRequest.size_lt _
  · exact pb.mobileResponse.size_lt _
  · exact pb.loginRequest.size_lt _
  · exact pb.loginResponse.size_lt _
  · simp

end SharedBike.Events

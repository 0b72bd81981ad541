import SharedBike.WireAgreement

/-!
# Responses as a stream of reads

The server writes one frame for each response; the transport delivers their
bytes in reads of its own making. The client runs its callback on each read, in
a buffer that holds whatever was on its stack.
-/

set_option autoImplicit false

namespace SharedBike.ResponseStream
open LittleEndian
open SharedBike.Globals SharedBike.BikeProtocol SharedBike.Events SharedBike.NetworkInterface
open SharedBike.Client SharedBike.WireAgreement

/-- The responses for which the server assembles a frame. -/
inductive Rsp where
  | mobileCode (code icode : Int32)
  | login (code : Int32)
  deriving DecidableEq, Repr

def Rsp.ev : Rsp → IEvent
  | .mobileCode code icode => mobileCodeRspEv code icode
  | .login code => loginRspEv code

/-- The identifier and the message that the client is to handle. -/
def Rsp.handled : Rsp → ℕ × Response
  | .mobileCode code icode => (EventId.getMobileCodeRsp.code,
      .mobileResponse ⟨code, icode, some (getReasonByErrorCode code)⟩)
  | .login code => (EventId.loginRsp.code,
      .loginResponse ⟨code, some (getReasonByErrorCode code)⟩)

/-- The client's `icode` after the response. -/
def Rsp.store (r : Rsp) (icode : Int32) : Int32 :=
  match r with
  | .mobileCode _ icode => icode
  | .login _ => icode

def Rsp.frame (pb : Protobuf) (r : Rsp) : Bytes := responseFrame pb r.ev r.ev.eid

theorem rsp_has_frame (r : Rsp) : HasFrame r.ev := by
  cases r with
  | mobileCode code icode => exact Or.inl rfl
  | login code => exact Or.inr rfl

/-- The frame is what the response loop writes, on any session. -/
theorem frame_assembled (pb : Protobuf) (r : Rsp) (args : Option Addr) (cs : ConnectSession) :
    ∃ cs', handleResponseEvent pb (r.ev.setArgs args) (.ok cs) =
      .ok (some (.wrote cs' (r.frame pb))) :=
  ⟨_,@handle_response_frame pb (r.ev.setArgs args) (rsp_has_frame r) cs⟩

/-- The read callback on one read after another: the `icode` at the end, and
what was handled. -/
def deliver (pb : Protobuf) (icode : Int32) :
    List (Bytes × Bytes) → Except Fault (Int32 × List (ℕ × Response))
  | [] => .ok (icode, [])
  | (msg, got)::reads => match serverMsgCb pb msg icode got with
    | .error f => .error f
    | .ok .exit => .ok (icode, [])
    | .ok (.next icode handled) => (deliver pb icode reads).map fun r =>
      (r.1, (handled.toList.map fun h => (h.eid, h.response))++r.2)

/-- Every response is handled once and in order, and the last mobile response
decides `icode`, whatever the buffer held before each read. -/
def HandledOnce (pb : Protobuf) (rs : List Rsp) (reads : List Bytes) : Prop :=
  ∀ (icode : Int32) (buffers : List Bytes), buffers.length = reads.length →
    (∀ b ∈ buffers, b.length = bufferLen) →
    deliver pb icode (buffers.zip reads) =
      .ok (rs.foldl (fun icode r => r.store icode) icode, rs.map Rsp.handled)

/-- What the client makes of an assembled response, for its frame. -/
theorem client_reads_frame {pb : Protobuf} {ev : IEvent} {response : Response}
    {code : Int32 → Int32} (h : ClientReads pb ev response code) (hf : HasFrame ev) :
    (responseFrame pb ev ev.eid).length < bufferLen ∧
      ∀ msg icode, msg.length = bufferLen → serverMsgCb pb msg icode (responseFrame pb ev ev.eid) =
        .ok (.next (code icode) (some ⟨ev.eid, ev.byteSize pb, response⟩)) := by
  obtain ⟨cs',frame,hw,hfit,-,-,hread⟩ := h none sessionInit
  rw [@handle_response_frame pb (ev.setArgs none) hf sessionInit] at hw
  have hframe : responseFrame pb ev ev.eid = frame :=
    (Sent.wrote.inj (Option.some.inj (Except.ok.inj hw))).2
  rw [hframe]
  exact ⟨hfit,hread⟩

theorem rsp_client_reads {pb : Protobuf} (hpb : pb.Lawful) (r : Rsp) :
    ClientReads pb r.ev r.handled.2 r.store := by
  cases r with
  | mobileCode code icode => exact mobile_response_read hpb code icode
  | login code => exact login_response_read hpb code

theorem rsp_eid (r : Rsp) : r.handled.1 = r.ev.eid := by
  cases r <;> rfl

theorem frame_read {pb : Protobuf} (hpb : pb.Lawful) (r : Rsp) {msg : Bytes}
    (hm : msg.length = bufferLen) (icode : Int32) : ∃ len,
    serverMsgCb pb msg icode (r.frame pb) =
      .ok (.next (r.store icode) (some ⟨r.handled.1, len, r.handled.2⟩)) := by
  rw [rsp_eid]
  exact ⟨_,(client_reads_frame (rsp_client_reads hpb r) (rsp_has_frame r)).2 msg icode hm⟩

theorem frame_short {pb : Protobuf} (hpb : pb.Lawful) (r : Rsp) :
    (r.frame pb).length < bufferLen :=
  (client_reads_frame (rsp_client_reads hpb r) (rsp_has_frame r)).1

/-- Reads of one whole frame each are handled as they should be. -/
theorem whole_frames_handled {pb : Protobuf} (hpb : pb.Lawful) (rs : List Rsp) :
    HandledOnce pb rs (rs.map (Rsp.frame pb)) := by
  intro icode buffers hlen hb
  induction rs generalizing icode buffers with
  | nil =>
    obtain rfl := List.eq_nil_of_length_eq_zero hlen
    rfl
  | cons r rs ih =>
    cases buffers with
    | nil => simp at hlen
    | cons b bs =>
      obtain ⟨len,hread⟩ := frame_read hpb r (hb b (by simp)) icode
      have hrest := ih (r.store icode) bs (by simpa using hlen)
        (fun b' hb' => hb b' (by simp [hb']))
      rw [List.map_cons, List.zip_cons_cons, deliver, hread]
      simp only [hrest, Except.map]
      rfl

end SharedBike.ResponseStream

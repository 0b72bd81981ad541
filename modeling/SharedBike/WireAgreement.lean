import SharedBike.Client
import SharedBike.ConnectionFraming

/-!
# The two ends of the wire

The client and the server write and read the same header by hand: the magic
word, the identifier at offset 4, the length at offset 6 and the message at
offset 10. What one end writes the other end reads, from the server in one
read and from the client in any number of pieces.
-/

set_option autoImplicit false

namespace SharedBike.WireAgreement
open LittleEndian LengthFrames Proto2
open SharedBike.Globals SharedBike.BikeProtocol SharedBike.Events SharedBike.DispatchMsgService
open SharedBike.NetworkInterface SharedBike.RequestReader SharedBike.ConnectionFraming
open SharedBike.Client

/-- Successive arrivals on one connection: the connection that is left, if it
is still open, and the events that were enqueued. -/
def feed (pb : Protobuf) (arg : Addr) (c : Conn) :
    List Bytes → Except Fault (Option Conn × List IEvent)
  | [] => .ok (some c, [])
  | b::bs => match c.arrive pb arg b with
    | .error f => .error f
    | .ok (.keep c) => feed pb arg c bs
    | .ok (.enqueue c ev) => (feed pb arg c bs).map fun r => (r.1, ev::r.2)
    | .ok (.free _) => .ok (none, [])

/-- The session waits for a request and holds no byte of one. -/
structure AtBoundary (c : Conn) : Prop where
  read : ReadState c.cs
  request : c.cs.sessionStat = .ssRequest
  pending : pendingBytes c.cs = []
  input : c.input = []

theorem feed_waiting {pb : Protobuf} {arg : Addr} {c : Conn} {chunks : List Bytes}
    (hs : c.cs.sessionStat = .ssResponse) (hi : c.input = []) (hc : chunks.flatten = []) :
    ∃ c', feed pb arg c chunks = .ok (some c', []) ∧ c'.cs = c.cs ∧ c'.calls = c.calls := by
  induction chunks generalizing c with
  | nil => exact ⟨c,rfl,rfl,rfl⟩
  | cons b bs ih =>
    obtain ⟨rfl,hbs⟩ := List.append_eq_nil_iff.mp hc
    have ha : c.arrive pb arg [] = .ok (.keep { c with received := c.received++[] }) := by
      rw [Conn.arrive, handle_request_waiting pb arg c.cs hs, hi]
      simp [← hi]
    obtain ⟨c',hf,h1,h2⟩ := @ih { c with received := c.received++[] } hs hi hbs
    exact ⟨c',by rw [feed, ha]; exact hf,h1,h2⟩

/-- A frame that arrives in any pieces is dispatched once, as the event that
its payload parses as. -/
theorem feed_frame {pb : Protobuf} {arg : Addr} {f : Frame} (hf : f.Valid wire) {ev : IEvent}
    (hparse : parseEvent pb (some f.payload) f.len f.tag = .ok (some ev)) {c : Conn}
    {chunks : List Bytes} (hr : ReadState c.cs) (hs : c.cs.sessionStat = .ssRequest)
    (hi : c.input = []) (hmore : readFrame wire (pendingBytes c.cs) = .more)
    (hbytes : pendingBytes c.cs++chunks.flatten = f.bytes wire) :
    ∃ c', feed pb arg c chunks = .ok (some c', [ev.setArgs (some arg)]) ∧
      c'.cs.sessionStat = .ssResponse ∧ c'.calls = c.calls++[f] := by
  induction chunks generalizing c with
  | nil =>
    have hw := read_complete wire hf []
    rw [List.append_nil, ← hbytes, List.flatten_nil, List.append_nil, hmore] at hw
    simp at hw
  | cons b bs ih =>
    have href := handle_request_refines pb arg hr hs b
    rw [List.flatten_cons, ← List.append_assoc] at hbytes
    rcases read_part wire hf hbytes with hm | ⟨hm,hrest⟩ <;> rw [Refines, hm] at href
    · obtain ⟨cs,hcs,hread,hst,hp⟩ := href
      have ha : c.arrive pb arg b =
          .ok (.keep { c with cs := cs, input := [], received := c.received++b }) := by
        rw [Conn.arrive, hi, List.nil_append, hcs]
      obtain ⟨c',hfeed,h1,h2⟩ :=
        @ih { c with cs := cs, input := [], received := c.received++b } hread hst rfl
          (by rw [hp]; exact hm) (by rw [hp]; exact hbytes)
      exact ⟨c',by rw [feed, ha]; exact hfeed,h1,h2⟩
    · obtain ⟨cs,hread,hst,hcs⟩ := href
      have ha : c.arrive pb arg b = .ok (.enqueue { c with
          cs := cs, input := [], received := c.received++b, calls := c.calls++[f] }
          (ev.setArgs (some arg))) := by
        rw [Conn.arrive, hi, List.nil_append, hcs, dispatchFrame, hparse]
      obtain ⟨c',hfeed,h1,h2⟩ := @feed_waiting pb arg { c with
          cs := cs, input := [], received := c.received++b, calls := c.calls++[f] } bs hst rfl hrest
      exact ⟨c',by rw [feed, ha]; simp only [hfeed, Except.map],by rw [h1]; exact hst,h2⟩

/-- The frame of a request is dispatched from any boundary. -/
theorem feed_boundary {pb : Protobuf} {f : Frame} (hf : f.Valid wire) {ev : IEvent}
    (hparse : parseEvent pb (some f.payload) f.len f.tag = .ok (some ev)) (arg : Addr)
    {c : Conn} (hc : AtBoundary c) {chunks : List Bytes} (hbytes : chunks.flatten = f.bytes wire) :
    ∃ c', feed pb arg c chunks = .ok (some c', [ev.setArgs (some arg)]) ∧
      c'.cs.sessionStat = .ssResponse ∧ c'.calls = c.calls++[f] := by
  refine feed_frame hf hparse hc.read hc.request hc.input ?_ ?_
  · rw [hc.pending]
    rfl
  · rw [hc.pending, List.nil_append, hbytes]

/-- The command makes the client write a frame that fits its buffer, and in
whatever pieces the frame arrives the server dispatches `ev`. -/
def ServerReads (pb : Protobuf) (icode : Int32) (cmd : Bytes) (ev : IEvent) : Prop :=
  ∀ msg typed, msg.length = bufferLen → typed ≠ [] → cStr typed.dropLast = cmd →
    ∃ frame payload, cmdMsgCb pb msg icode typed = .ok (some frame) ∧
      frame.length ≤ bufferLen ∧ 1 ≤ payload.length ∧ payload.length ≤ maxMsgLen ∧
      frame = (⟨ev.eid, payload.length, payload⟩ : Frame).bytes wire ∧
      ∀ (arg : Addr) (c : Conn) (chunks : List Bytes), AtBoundary c → chunks.flatten = frame →
        ∃ c', feed pb arg c chunks = .ok (some c', [ev.setArgs (some arg)]) ∧
          c'.cs.sessionStat = .ssResponse ∧
          c'.calls = c.calls++[⟨ev.eid, payload.length, payload⟩]

/-- The frame that answers with `ev` is shorter than the client's buffer, and
one read of it is handled as `response`; `code` is what the client then holds. -/
def ClientReads (pb : Protobuf) (ev : IEvent) (response : Response)
    (code : Int32 → Int32) : Prop :=
  ∀ (args : Option Addr) (cs : ConnectSession), ∃ cs' frame,
    handleResponseEvent pb (ev.setArgs args) (.ok cs) = .ok (some (.wrote cs' frame)) ∧
      frame.length < bufferLen ∧ 1 ≤ ev.byteSize pb ∧ ev.byteSize pb ≤ maxMsgLen ∧
      ∀ msg icode, msg.length = bufferLen →
        serverMsgCb pb msg icode frame =
          .ok (.next (code icode) (some ⟨ev.eid, ev.byteSize pb, response⟩))

/-- A frame assembled by the client and delivered in pieces. -/
theorem server_reads {pb : Protobuf} {msg payload : Bytes} {ev : IEvent}
    (hm : msg.length = bufferLen) (hp : 1 ≤ payload.length) (hfit : payload.length+10 ≤ bufferLen)
    (heid : ev.eid < 256^2)
    (hparse : parseEvent pb (some payload) payload.length ev.eid = .ok (some ev)) :
    assembleRequest msg ev.eid payload =
        .ok ((⟨ev.eid, payload.length, payload⟩ : Frame).bytes wire) ∧
      ((⟨ev.eid, payload.length, payload⟩ : Frame).bytes wire).length ≤ bufferLen ∧
      payload.length ≤ maxMsgLen ∧
      ∀ (arg : Addr) (c : Conn) (chunks : List Bytes), AtBoundary c →
        chunks.flatten = (⟨ev.eid, payload.length, payload⟩ : Frame).bytes wire →
        ∃ c', feed pb arg c chunks = .ok (some c', [ev.setArgs (some arg)]) ∧
          c'.cs.sessionStat = .ssResponse ∧
          c'.calls = c.calls++[⟨ev.eid, payload.length, payload⟩] := by
  have hmax : bufferLen ≤ maxMsgLen := by decide
  have hv : (⟨ev.eid, payload.length, payload⟩ : Frame).Valid wire :=
    ⟨heid,hp,show payload.length ≤ maxMsgLen by omega,rfl⟩
  refine ⟨?_,?_,by omega,fun arg c chunks hc hb => feed_boundary hv hparse arg hc hb⟩
  · rw [assemble_request_eq ev.eid hm hfit]
    rfl
  · rw [frame_length wire hv, wire_header_len]
    show 10+payload.length ≤ bufferLen
    omega

/-- One read of a frame leaves its fields where the client looks for them. -/
theorem client_reads {pb : Protobuf} {msg : Bytes} {ev : IEvent} (hm : msg.length = bufferLen)
    (hfit : ev.byteSize pb+10 < bufferLen) (heid : ev.eid < 256^2) :
    ∃ stored, storeRead msg (responseFrame pb ev ev.eid) = .ok stored ∧
      stored.take 4 = messageHeader ∧ read ((stored.drop 4).take 2) = ev.eid ∧
      asI32 (read ((stored.drop 6).take 4)) = ev.byteSize pb ∧
      ∀ (M : Type) (c : Codec M) (m : M),
        c.parseFromArray (ev.serializeToArray pb) = some m →
        parseBody c stored (ev.byteSize pb) = .ok m := by
  have hlen := response_frame_length pb ev ev.eid
  have hb : bufferLen = 1024 := rfl
  have hh : messageHeaderLen = 10 := rfl
  obtain ⟨stored,tail,hs,rfl,hl⟩ := store_read_eq hm
    (show (responseFrame pb ev ev.eid).length < bufferLen by omega)
  have hform : responseFrame pb ev ev.eid++tail =
      header wire ev.eid (ev.byteSize pb)++(ev.serializeToArray pb++tail) := by
    simp only [responseFrame, header, List.append_assoc]
    rfl
  refine ⟨_,hs,?_,?_,?_,fun M c m hc => ?_⟩
  · rw [hform]
    rfl
  · rw [hform, ← wire_tag]
    exact tag_header wire _ _ _ heid
  · rw [hform, ← wire_len, len_header wire _ _ _ (by omega), asI32, if_pos (by omega)]
  · have hbody : ((responseFrame pb ev ev.eid++tail).drop 10).take (ev.byteSize pb) =
        ev.serializeToArray pb := by
      rw [hform, List.drop_left' (by rw [header_length, wire_header_len])]
      exact List.take_left' rfl
    rw [parseBody, if_neg (by omega), Int.toNat_natCast, hbody, hc]
    rfl

/-- The response with a frame of its own is handled in one read. -/
theorem client_reads_response {pb : Protobuf} {ev : IEvent} {response : Response}
    {code : Int32 → Int32} (hf : HasFrame ev) (hpos : 1 ≤ ev.byteSize pb)
    (hfit : ev.byteSize pb+10 < bufferLen)
    (hreact : ∀ stored icode, stored.take 4 = messageHeader →
      read ((stored.drop 4).take 2) = ev.eid →
      asI32 (read ((stored.drop 6).take 4)) = ev.byteSize pb →
      (∀ (M : Type) (c : Codec M) (m : M), c.parseFromArray (ev.serializeToArray pb) = some m →
        parseBody c stored (ev.byteSize pb) = .ok m) →
      react pb icode stored =
        .ok (.next (code icode) (some ⟨ev.eid, ev.byteSize pb, response⟩))) :
    ClientReads pb ev response code := by
  intro args cs
  have hmax : bufferLen ≤ maxMsgLen := by decide
  have heid : ev.eid < 256^2 := by rcases hf with h | h <;> rw [h] <;> exact event_code_fits _
  refine ⟨_,_,@handle_response_frame pb (ev.setArgs args) hf cs,?_,hpos,by omega,
    fun msg icode hm => ?_⟩
  · rw [response_frame_length]
    exact hfit
  · obtain ⟨stored,hs,hmagic,htag,hlen,hbody⟩ := client_reads hm hfit heid
    have hne : responseFrame pb ev ev.eid ≠ [] :=
      List.ne_nil_of_length_pos (by rw [response_frame_length]; omega)
    show serverMsgCb pb msg icode (responseFrame pb ev ev.eid) = _
    rw [serverMsgCb, if_neg hne, hs]
    exact hreact stored icode hmagic htag hlen hbody

theorem mobile_response_read {pb : Protobuf} (hpb : pb.Lawful) (code icode : Int32) :
    ClientReads pb (mobileCodeRspEv code icode)
      (.mobileResponse ⟨code, icode, some (getReasonByErrorCode code)⟩) (fun _ => icode) := by
  have hl := mobile_response_length code icode (getReasonByErrorCode code)
  have hr := reason_length code
  have hb : bufferLen = 1024 := rfl
  have hsize : (mobileCodeRspEv code icode).byteSize pb = _ :=
    hpb.mobileResponse.byte_size ⟨code, icode, some (getReasonByErrorCode code)⟩ (by omega)
  have hparse := hpb.mobileResponse.parse_serialize
    ⟨code, icode, some (getReasonByErrorCode code)⟩ (by omega)
  apply client_reads_response (Or.inl rfl) (by omega) (by omega)
  intro stored held hmagic htag hlen hbody
  have hmsg := hbody _ pb.mobileResponse _ hparse
  simp only [react, if_pos hmagic, htag, hlen, hmsg]
  rfl

theorem login_response_read {pb : Protobuf} (hpb : pb.Lawful) (code : Int32) :
    ClientReads pb (loginRspEv code)
      (.loginResponse ⟨code, some (getReasonByErrorCode code)⟩) id := by
  have hl := login_response_length code (getReasonByErrorCode code)
  have hr := reason_length code
  have hb : bufferLen = 1024 := rfl
  have hsize : (loginRspEv code).byteSize pb = _ :=
    hpb.loginResponse.byte_size ⟨code, some (getReasonByErrorCode code)⟩ (by omega)
  have hparse := hpb.loginResponse.parse_serialize
    ⟨code, some (getReasonByErrorCode code)⟩ (by omega)
  apply client_reads_response (Or.inr rfl) (by omega) (by omega)
  intro stored held hmagic htag hlen hbody
  have hmsg := hbody _ pb.loginResponse _ hparse
  simp only [react, if_pos hmagic, htag, hlen, hmsg]
  rfl

theorem read_cmd_eq {typed cmd : Bytes} (hne : typed ≠ []) (h : cStr typed.dropLast = cmd) :
    readCmd typed = .ok cmd := by
  rw [readCmd, if_neg hne, h]

theorem send_mr_read {pb : Protobuf} (hpb : pb.Lawful) (icode : Int32) :
    ServerReads pb icode (ascii "send_mr") (mobileCodeReqEv clientMobile) := by
  intro msg typed hm hne hcmd
  have hc : clientMobile.length = 11 := by decide
  have hl := mobile_request_length ⟨clientMobile⟩
  have hb : bufferLen = 1024 := rfl
  simp only [hc] at hl
  have hsize : (pb.mobileRequest.serializeToArray ⟨clientMobile⟩).length = _ :=
    hpb.mobileRequest.byte_size ⟨clientMobile⟩ (by omega)
  have hparse := hpb.mobileRequest.parse_serialize ⟨clientMobile⟩ (by omega)
  have heid : (mobileCodeReqEv clientMobile).eid = 1 := rfl
  have hcode : EventId.getMobileCodeReq.code = 1 := rfl
  obtain ⟨hframe,hfit,hmax,hfeed⟩ := @server_reads pb msg
    (pb.mobileRequest.serializeToArray ⟨clientMobile⟩) (mobileCodeReqEv clientMobile) hm
    (by omega) (by omega) (by rw [heid]; decide) (by
      rw [heid, parseEvent, if_pos hcode.symm, List.take_length, hparse])
  refine ⟨_,_,?_,hfit,by omega,hmax,rfl,hfeed⟩
  rw [cmdMsgCb, read_cmd_eq hne hcmd, Except.bind, if_pos rfl, sendMr, ← heid, hframe]
  rfl

theorem send_lr_read {pb : Protobuf} (hpb : pb.Lawful) (icode : Int32) :
    ServerReads pb icode (ascii "send_lr") (loginReqEv clientMobile icode) := by
  intro msg typed hm hne hcmd
  have hc : clientMobile.length = 11 := by decide
  have hl := login_request_length ⟨clientMobile, icode⟩
  have hb : bufferLen = 1024 := rfl
  simp only [hc] at hl
  have hsize : (pb.loginRequest.serializeToArray ⟨clientMobile, icode⟩).length = _ :=
    hpb.loginRequest.byte_size ⟨clientMobile, icode⟩ (by omega)
  have hparse := hpb.loginRequest.parse_serialize ⟨clientMobile, icode⟩ (by omega)
  have heid : (loginReqEv clientMobile icode).eid = 3 := rfl
  have hcode : EventId.loginReq.code = 3 := rfl
  obtain ⟨hframe,hfit,hmax,hfeed⟩ := @server_reads pb msg
    (pb.loginRequest.serializeToArray ⟨clientMobile, icode⟩) (loginReqEv clientMobile icode) hm
    (by omega) (by omega) (by rw [heid]; decide) (by
      rw [heid, parseEvent, if_neg (by decide), if_pos hcode.symm, List.take_length, hparse])
  refine ⟨_,_,?_,hfit,by omega,hmax,rfl,hfeed⟩
  rw [cmdMsgCb, read_cmd_eq hne hcmd, Except.bind, if_neg (by decide), if_pos rfl, sendLr,
    ← heid, hframe]
  rfl

/-- The two ends agree: the client reads back every response that the server
writes, and the server every request that the client writes. -/
theorem wire_agreement (pb : Protobuf) (hpb : pb.Lawful) (code icode : Int32) :
    ClientReads pb (mobileCodeRspEv code icode)
        (.mobileResponse ⟨code, icode, some (getReasonByErrorCode code)⟩) (fun _ => icode) ∧
      ClientReads pb (loginRspEv code)
        (.loginResponse ⟨code, some (getReasonByErrorCode code)⟩) id ∧
      ServerReads pb icode (ascii "send_mr") (mobileCodeReqEv clientMobile) ∧
      ServerReads pb icode (ascii "send_lr") (loginReqEv clientMobile icode) :=
  ⟨mobile_response_read hpb code icode,login_response_read hpb code,send_mr_read hpb icode,
    send_lr_read hpb icode⟩

theorem wire_agreement_proto2 :
    ClientReads proto2 (mobileCodeRspEv 200 123456)
        (.mobileResponse ⟨200, 123456, some (getReasonByErrorCode 200)⟩) (fun _ => 123456) ∧
      ServerReads proto2 (-7) (ascii "send_lr") (loginReqEv clientMobile (-7)) :=
  ⟨(wire_agreement proto2 proto2_lawful 200 123456).1,
    (wire_agreement proto2 proto2_lawful 200 (-7)).2.2.2⟩

end SharedBike.WireAgreement

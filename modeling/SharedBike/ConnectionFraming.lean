import SharedBike.RequestReader
import SharedBike.Library.GuardedRuns

/-!
# One connection: framing under any chunking

A connection is a session with the input buffer of its socket. Three ghost
fields record its identity, the bytes that arrived and the frames handed to
the parser. Arrivals and completed responses are the steps of the connection.
-/

set_option autoImplicit false

namespace SharedBike.ConnectionFraming
open LittleEndian LengthFrames GuardedRuns
open SharedBike.Globals SharedBike.BikeProtocol SharedBike.Events
open SharedBike.DispatchMsgService SharedBike.NetworkInterface SharedBike.RequestReader

structure Conn where
  cs : ConnectSession
  input : Bytes
  sid : ℕ
  received : Bytes
  calls : List Frame
  deriving DecidableEq, Repr

def Conn.accepted (sid : ℕ) : Conn := ⟨sessionInit, [], sid, [], []⟩

inductive Arrival where
  | keep (c : Conn)
  | enqueue (c : Conn) (ev : IEvent)
  | free (call : Option Frame)
  deriving DecidableEq, Repr

/-- Bytes are appended to the input buffer and the read callback runs once. -/
def Conn.arrive (pb : Protobuf) (arg : Addr) (c : Conn) (bytes : Bytes) : Except Fault Arrival :=
  match handleRequest pb arg c.cs (c.input++bytes) with
  | .error f => .error f
  | .ok (.keep cs input) =>
    .ok (.keep { c with cs := cs, input := input, received := c.received++bytes })
  | .ok (.enqueue cs input call ev) =>
    .ok (.enqueue { c with
      cs := cs, input := input, received := c.received++bytes, calls := c.calls++[call] } ev)
  | .ok (.free call) => .ok (.free call)

/-- The arriving bytes complete a frame, and its payload parses as the event. -/
def Carries (pb : Protobuf) (c : Conn) (bytes : Bytes) (ev : IEvent) : Prop :=
  ∃ f rest, readFrame wire (pendingBytes c.cs++c.input++bytes) = .complete f rest ∧
    parseEvent pb (some f.payload) f.len f.tag = .ok (some ev)

structure Sound (c : Conn) : Prop where
  read : ReadState c.cs
  valid : ∀ f ∈ c.calls, f.Valid wire
  bytes : c.calls.flatMap (Frame.bytes wire)++pendingBytes c.cs++c.input = c.received

/-- Everything the callback may do when it keeps the session and dispatches
nothing: the bytes only move from the buffer into the session. -/
structure Kept (c c' : Conn) (bytes : Bytes) : Prop where
  sid : c'.sid = c.sid
  calls : c'.calls = c.calls
  status : c'.cs.sessionStat = c.cs.sessionStat
  read : ReadState c'.cs
  held : pendingBytes c'.cs++c'.input = pendingBytes c.cs++c.input++bytes
  received : c'.received = c.received++bytes
  drained : c.cs.sessionStat = .ssRequest → c'.input = [] ∧
    readFrame wire (pendingBytes c.cs++c.input++bytes) = .more
  waiting : c.cs.sessionStat = .ssResponse → c'.input = c.input++bytes

/-- A dispatch takes the one frame the reader finds, and leaves the rest. -/
structure Dispatched (pb : Protobuf) (arg : Addr) (c c' : Conn) (bytes : Bytes)
    (ev : IEvent) : Prop where
  sid : c'.sid = c.sid
  before : c.cs.sessionStat = .ssRequest
  after : c'.cs.sessionStat = .ssResponse
  read : ReadState c'.cs
  received : c'.received = c.received++bytes
  call : ∃ f, readFrame wire (pendingBytes c.cs++c.input++bytes) = .complete f c'.input ∧
    c'.calls = c.calls++[f] ∧
    ∃ req, parseEvent pb (some f.payload) f.len f.tag = .ok (some req) ∧
      ev = req.setArgs (some arg)

theorem status_cases (cs : ConnectSession) :
    cs.sessionStat = .ssRequest ∨ cs.sessionStat = .ssResponse := by
  cases cs.sessionStat <;> simp

theorem arrive_cases {pb : Protobuf} {arg : Addr} {c : Conn} {bytes : Bytes} {r : Arrival}
    (hr : ReadState c.cs) (h : c.arrive pb arg bytes = .ok r) :
    (∃ c', r = .keep c' ∧ Kept c c' bytes) ∨
      (∃ c' ev, r = .enqueue c' ev ∧ Dispatched pb arg c c' bytes ev) ∨
      ∃ call, r = .free call ∧ c.cs.sessionStat = .ssRequest ∧ ∀ ev, ¬ Carries pb c bytes ev := by
  rcases status_cases c.cs with hs | hs
  · have href := handle_request_refines pb arg hr hs (c.input++bytes)
    rw [← List.append_assoc] at href
    unfold Conn.arrive at h
    unfold Refines at href
    split at href
    · rename_i hbad
      rw [href] at h
      refine Or.inr (Or.inr ⟨_,(Except.ok.inj h).symm,hs,?_⟩)
      rintro ev ⟨f,rest,hf,-⟩
      rw [hbad] at hf
      simp at hf
    · rename_i hmore
      obtain ⟨cs,hcs,hread,hst,hp⟩ := href
      rw [hcs] at h
      refine Or.inl ⟨_,(Except.ok.inj h).symm,⟨rfl,rfl,hst.trans hs.symm,hread,?_,rfl,
        fun _ => ⟨rfl,hmore⟩,fun hx => by simp [hs] at hx⟩⟩
      simp [hp]
    · rename_i f rest hcomplete
      obtain ⟨cs,hread,hst,hcs⟩ := href
      rw [hcs, dispatchFrame] at h
      split at h
      · simp at h
      · rename_i heq
        split at heq <;> simp at heq
      · rename_i heq
        split at heq
        · simp at heq
        · simp at heq
        · rename_i req hparse
          obtain ⟨rfl,rfl,rfl,rfl⟩ := Callback.enqueue.inj (Except.ok.inj heq)
          exact Or.inr (Or.inl ⟨_,_,(Except.ok.inj h).symm,⟨rfl,hs,hst,hread,rfl,
            ⟨_,hcomplete,rfl,_,hparse,rfl⟩⟩⟩)
      · rename_i heq
        refine Or.inr (Or.inr ⟨_,(Except.ok.inj h).symm,hs,?_⟩)
        rintro ev ⟨g,rest',hg,hparse⟩
        obtain ⟨rfl,-⟩ := Reading.complete.inj (hcomplete.symm.trans hg)
        rw [hparse] at heq
        simp at heq
  · rw [Conn.arrive, handle_request_waiting pb arg c.cs hs] at h
    refine Or.inl ⟨_,(Except.ok.inj h).symm,⟨rfl,rfl,rfl,hr,?_,rfl,
      fun hx => by simp [hs] at hx,fun _ => rfl⟩⟩
    simp

theorem kept_sound {c c' : Conn} {bytes : Bytes} (h : Kept c c' bytes) (hs : Sound c) :
    Sound c' where
  read := h.read
  valid := by rw [h.calls]; exact hs.valid
  bytes := by
    rw [h.calls, List.append_assoc, h.held, h.received, ← hs.bytes]
    simp

theorem dispatched_sound {pb : Protobuf} {arg : Addr} {c c' : Conn} {bytes : Bytes}
    {ev : IEvent} (h : Dispatched pb arg c c' bytes ev) (hs : Sound c) : Sound c' := by
  obtain ⟨f,hf,hcalls,-⟩ := h.call
  obtain ⟨hv,hb⟩ := read_inv wire hf
  refine ⟨h.read,?_,?_⟩
  · rw [hcalls]
    intro g hg
    rcases List.mem_append.mp hg with hg | hg
    · exact hs.valid g hg
    · rw [List.mem_singleton.mp hg]; exact hv
  · have hp : pendingBytes c'.cs = [] := by simp [pendingBytes, h.after]
    rw [hcalls, hp, List.append_nil, h.received, ← hs.bytes, List.flatMap_append,
      List.append_assoc, List.append_assoc, List.append_assoc]
    congr 1
    rw [← List.append_assoc (pendingBytes c.cs), hb]
    simp

/-- A written response resets the session; no byte of the stream is held then. -/
def Conn.replied (c : Conn) (ev : IEvent) : Conn :=
  { c with cs := sessionReset { c.cs with response := some ev } }

theorem replied_read_state {c : Conn} (ev : IEvent) (h : ReadState c.cs) :
    ReadState (c.replied ev).cs :=
  reset_read_state h.header_cells

theorem replied_sound {c : Conn} (ev : IEvent) (hs : Sound c)
    (hw : c.cs.sessionStat = .ssResponse) : Sound (c.replied ev) where
  read := replied_read_state ev hs.read
  valid := hs.valid
  bytes := by
    have hp : pendingBytes c.cs = [] := by simp [pendingBytes, hw]
    have hb := hs.bytes
    rw [hp] at hb
    exact hb

theorem accepted_sound (sid : ℕ) : Sound (Conn.accepted sid) :=
  ⟨init_read_state,by simp [Conn.accepted],rfl⟩

/-- The frames handed to the parser are an initial part of the reference
decoding of everything received. -/
theorem sound_calls {c : Conn} (hs : Sound c) : c.calls <+: decodeAll wire c.received := by
  rw [← hs.bytes, List.append_assoc, decode_append wire _ hs.valid]
  exact List.prefix_append _ _

/-! The connection on its own, with its one request in flight. -/

structure Link where
  conn : Option Conn
  work : Option IEvent
  deriving DecidableEq, Repr

inductive LinkAction where
  | arrive (bytes : Bytes)
  | complete (rsp : IEvent)

def Link.start : Link := ⟨some (Conn.accepted 0), none⟩

def linkStep (pb : Protobuf) (arg : Addr) (l : Link) : LinkAction → Option (Except Fault Link)
  | .arrive bytes => l.conn.map fun c => match c.arrive pb arg bytes with
    | .error f => .error f
    | .ok (.keep c) => .ok { l with conn := some c }
    | .ok (.enqueue c ev) => .ok ⟨some c, some ev⟩
    | .ok (.free _) => .ok { l with conn := none }
  | .complete rsp => match l.conn, l.work with
    | some c, some _ => some (match handleResponseEvent pb rsp (.ok c.cs) with
      | .error f => .error f
      | .ok none => .ok { l with work := none }
      | .ok (some (.wrote cs _)) => .ok ⟨some { c with cs := cs }, none⟩
      | .ok (some (.freed _)) => .ok ⟨none, none⟩)
    | _, _ => none

def linkMachine (pb : Protobuf) (arg : Addr) : Machine Link LinkAction Fault :=
  ⟨linkStep pb arg⟩

/-- The bytes the peer has sent, in order. -/
def streamOf (as : List LinkAction) : Bytes :=
  as.flatMap fun a => match a with
    | .arrive bytes => bytes
    | .complete _ => []

theorem stream_arrive (as : List LinkAction) (bytes : Bytes) :
    streamOf (as++[.arrive bytes]) = streamOf as++bytes := by
  simp [streamOf]

theorem stream_complete (as : List LinkAction) (rsp : IEvent) :
    streamOf (as++[.complete rsp]) = streamOf as := by
  simp [streamOf]

structure LinkInvariant (stream : Bytes) (l : Link) : Prop where
  sound : ∀ c, l.conn = some c → Sound c
  stream : ∀ c, l.conn = some c → c.received = stream
  work : ∀ c, l.conn = some c → l.work.isSome → c.cs.sessionStat = .ssResponse

theorem link_arrive {pb : Protobuf} {arg : Addr} {stream : Bytes} {l l' : Link} {bytes : Bytes}
    (hi : LinkInvariant stream l) (hn : (linkMachine pb arg).Next l (.arrive bytes) l') :
    LinkInvariant (stream++bytes) l' := by
  simp only [Machine.Next, linkMachine, linkStep, Option.map_eq_some_iff] at hn
  obtain ⟨c,hc,hn⟩ := hn
  have hs := hi.sound c hc
  have hst := hi.stream c hc
  split at hn
  · simp at hn
  · rename_i c' harr
    obtain rfl := Except.ok.inj hn
    rcases arrive_cases hs.read harr with ⟨d,hd,hk⟩ | ⟨d,ev,hd,-⟩ | ⟨call,hd,-⟩
    · obtain rfl := Arrival.keep.inj hd
      refine ⟨fun d hd => ?_,fun d hd => ?_,fun d hd hw => ?_⟩ <;>
        obtain rfl := Option.some.inj hd
      · exact kept_sound hk hs
      · rw [hk.received, hst]
      · rw [hk.status]
        exact hi.work c hc hw
    · simp at hd
    · simp at hd
  · rename_i c' ev harr
    obtain rfl := Except.ok.inj hn
    rcases arrive_cases hs.read harr with ⟨d,hd,-⟩ | ⟨d,ev,hd,hk⟩ | ⟨call,hd,-⟩
    · simp at hd
    · obtain ⟨rfl,rfl⟩ := Arrival.enqueue.inj hd
      refine ⟨fun d hd => ?_,fun d hd => ?_,fun d hd _ => ?_⟩ <;>
        obtain rfl := Option.some.inj hd
      · exact dispatched_sound hk hs
      · rw [hk.received, hst]
      · exact hk.after
    · simp at hd
  · obtain rfl := Except.ok.inj hn
    exact ⟨fun d hd => by simp at hd,fun d hd => by simp at hd,fun d hd => by simp at hd⟩

theorem link_complete {pb : Protobuf} {arg : Addr} {stream : Bytes} {l l' : Link}
    {rsp : IEvent} (hi : LinkInvariant stream l)
    (hn : (linkMachine pb arg).Next l (.complete rsp) l') : LinkInvariant stream l' := by
  simp only [Machine.Next, linkMachine, linkStep] at hn
  split at hn
  · rename_i c ev hc hw
    have hs := hi.sound c hc
    have hst := hi.work c hc (by simp [hw])
    by_cases hf : HasFrame rsp
    · rw [handle_response_frame pb hf] at hn
      obtain rfl := Except.ok.inj (Option.some.inj hn)
      refine ⟨fun d hd => ?_,fun d hd => ?_,fun d hd hx => by simp at hx⟩ <;>
        obtain rfl := Option.some.inj hd
      · exact replied_sound rsp hs hst
      · exact hi.stream c hc
    · by_cases he : rsp.eid = EventId.exitRsp.code
      · rw [handle_response_exit pb he hs.read.write] at hn
        simp at hn
      · rw [handle_response_dropped pb (by simp [Recognised, hf, he])] at hn
        obtain rfl := Except.ok.inj (Option.some.inj hn)
        exact ⟨hi.sound,hi.stream,fun d hd hx => by simp at hx⟩
  · simp at hn

theorem link_invariant {pb : Protobuf} {arg : Addr} {as : List LinkAction} {l : Link}
    (hr : (linkMachine pb arg).Run Machine.Free Link.start as l) :
    LinkInvariant (streamOf as) l := by
  apply hr.traced
  · refine ⟨fun c hc => ?_,fun c hc => ?_,fun c _ hw => by simp [Link.start] at hw⟩ <;>
      obtain rfl := Option.some.inj hc
    · exact accepted_sound 0
    · rfl
  · intro as t a u hi _ hn
    cases a with
    | arrive bytes => rw [stream_arrive]; exact link_arrive hi hn
    | complete rsp => rw [stream_complete]; exact link_complete hi hn

/-- Framing is sound: for every stream, every chunking and every interleaving
with responses, what the parser was given is a decoded initial part of the
stream, and no byte of the stream is lost, repeated or reordered. -/
theorem framing_sound (pb : Protobuf) (arg : Addr) (as : List LinkAction) (l : Link)
    (hr : (linkMachine pb arg).Run Machine.Free Link.start as l) (c : Conn)
    (hc : l.conn = some c) :
    c.calls <+: decodeAll wire (streamOf as) ∧
      c.calls.flatMap (Frame.bytes wire)++
        (if c.cs.sessionStat = .ssRequest then
          c.cs.header.take c.cs.readHeaderLen++(c.cs.readBuf.getD []).take c.cs.readMsgLen
        else [])++c.input = streamOf as := by
  have hi := link_invariant hr
  have hs := hi.sound c hc
  have hb := hs.bytes
  rw [← hi.stream c hc]
  refine ⟨sound_calls hs,?_⟩
  rcases status_cases c.cs with h | h
  · simpa [pendingBytes, h] using hb
  · simpa [pendingBytes, h] using hb

def sampleChunks : List LinkAction :=
  [.arrive [70, 66, 69], .arrive [66, 1, 0, 3, 0, 0, 0, 10, 1], .arrive [49, 70],
    .complete (mobileCodeRspEv 200 7), .arrive [66]]

theorem framing_sound_split : ∃ l c, (linkMachine proto2 8).replay Link.start sampleChunks =
    some l ∧ l.conn = some c ∧ c.calls = [⟨1, 3, [10, 1, 49]⟩] ∧ c.input = [] ∧
    c.calls <+: decodeAll wire (streamOf sampleChunks) :=
  ⟨_,_,rfl,rfl,rfl,rfl,
    (framing_sound proto2 8 sampleChunks _ (Machine.free_of_replay rfl) _ rfl).1⟩

end SharedBike.ConnectionFraming

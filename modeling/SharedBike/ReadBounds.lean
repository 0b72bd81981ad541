import SharedBike.ServerView

/-!
# Every read stays inside its buffer

The fields of an open session between two callbacks, and what follows for the
two reads of the request callback: each asks for at least one byte, and no
byte more than the rest of its buffer; no subtraction of the callback wraps.
-/

set_option autoImplicit false

namespace SharedBike.ReadBounds
open LittleEndian GuardedRuns
open SharedBike.Globals SharedBike.BikeProtocol SharedBike.Events
open SharedBike.DispatchMsgService SharedBike.NetworkInterface SharedBike.RequestReader
open SharedBike.ConnectionFraming SharedBike.Server SharedBike.ServerView
open SharedBike.ThreadPool (defaultThreadsNum defaultQueueNum)

structure ReadFields (cs : ConnectSession) : Prop where
  header_len : cs.readHeaderLen ≤ 10
  phase : cs.sessionStat = .ssRequest → cs.reqStat = .msReadHeader ∨ cs.reqStat = .msReadMessage
  header : cs.sessionStat = .ssRequest → cs.reqStat = .msReadHeader →
    cs.readHeaderLen < 10 ∧ cs.readMsgLen = 0 ∧ cs.readBuf = none
  message : cs.sessionStat = .ssRequest → cs.reqStat = .msReadMessage →
    cs.readHeaderLen = 10 ∧ 1 ≤ cs.msgLen ∧ cs.msgLen ≤ maxMsgLen ∧
      (∃ buf, cs.readBuf = some buf ∧ buf.length = cs.msgLen) ∧ cs.readMsgLen < cs.msgLen
  response : cs.sessionStat = .ssResponse → cs.readBuf = none

/-- The missing `full-has` bytes are asked for at offset `has` of a buffer. -/
structure Fits (full has size : ℕ) : Prop where
  no_wrap : has ≤ full ∧ u32Sub full has = full-has
  positive : 0 < u32Sub full has
  inside : has+u32Sub full has ≤ size

/-- The reads that the callback makes on a session. The body read happens on
the session that the header part leaves. -/
structure ReadsFit (cs : ConnectSession) : Prop where
  header : cs.sessionStat = .ssRequest → cs.reqStat = .msReadHeader →
    Fits messageHeaderLen cs.readHeaderLen cs.header.length ∧
      ∀ got, got ≤ u32Sub messageHeaderLen cs.readHeaderLen →
        u32 (cs.readHeaderLen+got) = cs.readHeaderLen+got ∧ cs.readHeaderLen+got ≤ 10 ∧
          cs.readHeaderLen+got < cs.header.length
  body : cs.sessionStat = .ssRequest → ∀ input cs' rest,
    headerPhase cs input = .ok (some (cs', rest)) → cs'.reqStat = .msReadMessage →
      ∃ buf, cs'.readBuf = some buf ∧ Fits cs'.msgLen cs'.readMsgLen buf.length

theorem fits {full has size : ℕ} (h : has < full) (hfull : full ≤ size) (hsize : full < 2^32) :
    Fits full has size := by
  have hsub : u32Sub full has = full-has := u32_sub_small h.le hsize
  refine ⟨⟨h.le,hsub⟩,?_,?_⟩
  · omega
  · omega

theorem read_fields {cs : ConnectSession} (h : ReadState cs) : ReadFields cs where
  header_len := by
    rcases status_cases cs with hs | hs
    · rcases h.request hs with ⟨-,hh⟩ | ⟨-,hm⟩
      · exact hh.header_len.le
      · exact hm.header_len.le
    · exact (h.response hs).2.le
  phase hs := (h.request hs).imp And.left And.left
  header hs hq := by
    rcases h.request hs with ⟨-,hh⟩ | ⟨hq',-⟩
    · exact ⟨hh.header_len,hh.msg_len,hh.buffer⟩
    · simp [hq] at hq'
  message hs hq := by
    rcases h.request hs with ⟨hq',-⟩ | ⟨-,hm⟩
    · simp [hq] at hq'
    · have hgood := hm.good.2
      rw [← hm.len] at hgood
      exact ⟨hm.header_len,hgood.1,hgood.2,hm.buffer,hm.room⟩
  response hs := (h.response hs).1

theorem message_fits {cs : ConnectSession} (h : MessageState cs) :
    ∃ buf, cs.readBuf = some buf ∧ Fits cs.msgLen cs.readMsgLen buf.length := by
  obtain ⟨buf,hb,hl⟩ := h.buffer
  have hlim : cs.msgLen ≤ maxMsgLen := by
    rw [h.len]
    exact h.good.2.2
  have hmax : maxMsgLen < 2^32 := by decide
  exact ⟨buf,hb,fits h.room hl.ge (by omega)⟩

/-- A header part that goes on to the body leaves a session in the body state. -/
theorem header_phase_message {cs cs' : ConnectSession} {input rest : Bytes} (h : ReadState cs)
    (hs : cs.sessionStat = .ssRequest) (hp : headerPhase cs input = .ok (some (cs', rest)))
    (hq : cs'.reqStat = .msReadMessage) : MessageState cs' := by
  rcases h.request hs with ⟨hq',hh⟩ | ⟨hq',hm⟩
  · obtain ⟨header,hread,hl,-⟩ := read_header_eq h.header_cells hh input
    rw [headerPhase, if_pos hq', hread] at hp
    simp only at hp
    split_ifs at hp with hfull
    · rw [check_header_eq hl] at hp
      split_ifs at hp with hg
      · simp only [Option.map_some, Except.ok.injEq, Option.some.injEq, Prod.mk.injEq] at hp
        obtain ⟨rfl,-⟩ := hp
        exact open_message_state hfull hg
      · simp at hp
    · simp only [Except.ok.injEq, Option.some.injEq, Prod.mk.injEq] at hp
      obtain ⟨rfl,-⟩ := hp
      simp [hq'] at hq
  · rw [headerPhase, if_neg (by simp [hq'])] at hp
    simp only [Except.ok.injEq, Option.some.injEq, Prod.mk.injEq] at hp
    obtain ⟨rfl,-⟩ := hp
    exact hm

theorem reads_fit {cs : ConnectSession} (h : ReadState cs) : ReadsFit cs where
  header hs hq := by
    obtain ⟨hlen,-⟩ := (read_fields h).header hs hq
    have hcells := h.header_cells
    have hten : messageHeaderLen = 10 := rfl
    have hfit : Fits messageHeaderLen cs.readHeaderLen cs.header.length :=
      fits hlen (by omega) (by decide)
    refine ⟨hfit,fun got hgot => ?_⟩
    have hsub := hfit.no_wrap.2
    have hle : cs.readHeaderLen+got ≤ 10 := by omega
    exact ⟨u32_small (by omega),hle,by omega⟩
  body hs input cs' rest hp hq := message_fits (header_phase_message h hs hp hq)

/-- The callback never stores outside a buffer and never reads a null one. -/
theorem request_faults {pb : Protobuf} {arg : Addr} {cs : ConnectSession} {input : Bytes}
    {f : Fault} (h : ReadState cs) (hf : handleRequest pb arg cs input = .error f) :
    f = .missingReturn := by
  rcases status_cases cs with hs | hs
  · have href := handle_request_refines pb arg h hs input
    rw [hf] at href
    unfold Refines at href
    split at href
    · simp at href
    · obtain ⟨cs',he,-⟩ := href
      simp at he
    · rename_i fr rest _
      obtain ⟨cs',-,-,he⟩ := href
      unfold dispatchFrame at he
      split at he
      · rename_i e hparse
        obtain rfl := Except.error.inj he
        unfold parseEvent at hparse
        simp only at hparse
        split_ifs at hparse <;> split at hparse <;>
          simp only [Except.error.injEq, reduceCtorEq] at hparse
        · exact hparse.symm
        · exact hparse.symm
      · simp at he
      · simp at he
  · rw [handle_request_waiting pb arg cs hs] at hf
    simp at hf

/-- In every reachable state of the server, for every open session: the fields
keep to their phase, every read of the callback fits its buffer, and the
callback ends in no memory fault, whatever bytes are in the input buffer. -/
theorem reads_in_bounds (pb : Protobuf) (subscribers : EventHandlersMap) (threads : ℕ)
    (maxQueue : ℤ) (as : List Action) (s : State)
    (hr : (machine pb).Run Machine.Free (State.start subscribers threads maxQueue) as s)
    (a : Addr) (c : Conn) (hc : s.conns a = some c) :
    ReadFields c.cs ∧ ReadsFit c.cs ∧
      ∀ input f, handleRequest pb a c.cs input = .error f → f = .missingReturn := by
  have hread : Readable s := hr.invariant (start_readable subscribers threads maxQueue)
    fun _ _ _ h _ hn => next_readable h hn
  have h := hread a c hc
  exact ⟨read_fields h,reads_fit h,fun input f hf => request_faults h hf⟩

/-- A header in two parts, the second of which brings two bytes of the body. -/
def splitHeader : List Action :=
  [.accept 8, .arrive 8 [70, 66, 69], .arrive 8 [66, 1, 0, 3, 0, 0, 0, 10, 1]]

theorem reads_in_bounds_split : ∃ s c,
    (machine proto2).Run Machine.Free (State.start (fun _ => none) defaultThreadsNum
      defaultQueueNum) splitHeader s ∧ s.conns 8 = some c ∧ c.cs.readMsgLen = 2 ∧
    ReadFields c.cs ∧ ReadsFit c.cs := by
  obtain ⟨s,c,hs,hc,hlen⟩ : ∃ s c, (machine proto2).replay (State.start (fun _ => none)
      defaultThreadsNum defaultQueueNum) splitHeader = some s ∧ s.conns 8 = some c ∧
      c.cs.readMsgLen = 2 := ⟨_,_,rfl,rfl,rfl⟩
  have hrun := Machine.free_of_replay hs
  have h := reads_in_bounds proto2 (fun _ => none) _ _ _ s hrun 8 c hc
  exact ⟨s,c,hrun,hc,hlen,h.1,h.2.1⟩

end SharedBike.ReadBounds

import SharedBike.LoginCodes
import SharedBike.DispatchMsgService

/-!
# The size of the formatted statements

No step between the wire and the two calls of `sprintf` limits the length of a
mobile: the frame allows payloads far longer than the buffer, and the login
that carries the issued code passes for any mobile.
-/

set_option autoImplicit false

namespace SharedBike.SqlBuffer
open LittleEndian GuardedRuns
open SharedBike.Globals SharedBike.BikeProtocol SharedBike.Events SharedBike.DispatchMsgService
open SharedBike.UserService SharedBike.UserEventHandler

/-- A pair of request payloads that the framing lets through: a code request
and a login for the same mobile. -/
structure Delivered (pb : Protobuf) (m : Bytes) (c : Int32) (codeReq loginReq : Bytes) :
    Prop where
  codeLen : 1 ≤ codeReq.length ∧ codeReq.length ≤ maxMsgLen
  codeEvent : parseEvent pb (some codeReq) codeReq.length EventId.getMobileCodeReq.code =
    .ok (some (mobileCodeReqEv m))
  loginLen : 1 ≤ loginReq.length ∧ loginReq.length ≤ maxMsgLen
  loginEvent : parseEvent pb (some loginReq) loginReq.length EventId.loginReq.code =
    .ok (some (loginReqEv m c))

/-- In no run of the handler does a login for `m` that the framing lets through
write outside the buffer when it formats a statement. -/
def SqlFits (pb : Protobuf) (m : Bytes) : Prop :=
  ∀ c codeReq loginReq, Delivered pb m c codeReq loginReq →
    ∀ (table : UserInfo) (as : List Action) (s : State) (i : ℕ) (env : Environment)
      (args : Option Addr), machine.Run Machine.Free (State.start table) as s →
      (s.calls[i]? = some ⟨(loginReqEv m c).setArgs args, .exist m c⟩ ∨
        s.calls[i]? = some ⟨(loginReqEv m c).setArgs args, .insert m c⟩) →
      ¬ machine.Fails s (.advance i env) .outOfBounds

def issuing (c : Int32) : Environment := ⟨c, true, .rows, true⟩

/-- A code request followed by a login with the issued code, up to the select. -/
def loginWithCode (m : Bytes) (c : Int32) : List Action :=
  [.call (mobileCodeReqEv m), .advance 0 (issuing c), .advance 0 (issuing c),
    .advance 0 (issuing c), .advance 0 (issuing c), .call (loginReqEv m c),
    .advance 1 (issuing c), .advance 1 (issuing c), .advance 1 (issuing c),
    .advance 1 (issuing c)]

/-- The issued code admits its mobile, whatever the mobile is. -/
theorem reaches_exist (m : Bytes) (c : Int32) : ∃ s,
    machine.Run Machine.Free (State.start []) (loginWithCode m c) s ∧
      s.calls[1]? = some ⟨loginReqEv m c, .exist m c⟩ ∧ s.table = [] := by
  let s : State := ⟨Function.update (fun _ => none) m (some c), none,
    [⟨mobileCodeReqEv m, .returned (some (mobileCodeRspEv EErrorCode.success.code c))⟩,
      ⟨loginReqEv m c, .exist m c⟩], [], [.stored 0 m c, .verified 1 m c true]⟩
  refine ⟨s,Machine.free_of_replay ?_,rfl,rfl⟩
  have hne : EventId.loginReq.code ≠ EventId.getMobileCodeReq.code := by decide
  simp [loginWithCode, Machine.replay, machine, step, handle, advance, State.goto, State.start,
    verify, mobileCodeReqEv, loginReqEv, issuing, hne, s]

theorem reaches_insert (m : Bytes) (c : Int32)
    (hfit : (existSql m).length+1 ≤ sqlContentLen) : ∃ as s,
    machine.Run Machine.Free (State.start []) as s ∧
      s.calls[1]? = some ⟨loginReqEv m c, .insert m c⟩ := by
  obtain ⟨s,hr,hcall,htable⟩ := reaches_exist m c
  have hrows : UserService.exist s.table (issuing c).select m = .ok false := by
    cases he : UserService.exist s.table (issuing c).select m with
    | error f => exact absurd (exist_error.mp he).2 (by omega)
    | ok b =>
      have hb := exist_rows he
      rw [htable] at hb
      cases b with
      | false => rfl
      | true => simp at hb
  refine ⟨_,_,.snoc hr trivial (a := .advance 1 (issuing c))
    (u := { s with log := s.log++[Entry.selected 1 m false] }.goto 1 (loginReqEv m c) (.insert m c))
    ?_,?_⟩
  · simp only [Machine.Next, machine, step, hcall, advance, hrows]
  · exact (CallHistory.goto_calls (List.getElem?_eq_some_iff.mp hcall).1).trans (if_pos rfl)

theorem sql_fits_of_short {pb : Protobuf} {m : Bytes} (h : (cStr m).length ≤ 984) :
    SqlFits pb m := by
  intro c codeReq loginReq _ table as s i env args _ hcall hfail
  have hexist := exist_sql_length m
  have hinsert := insert_sql_length m
  have hbuf : sqlContentLen = 1024 := rfl
  rcases hcall with hcall | hcall
  · simp only [Machine.Fails, machine, step, hcall, advance, Option.some.injEq] at hfail
    split at hfail
    · rename_i f he
      exact absurd (exist_error.mp he).2 (by omega)
    · simp at hfail
    · simp at hfail
  · simp only [Machine.Fails, machine, step, hcall, advance, Option.some.injEq] at hfail
    split at hfail
    · rename_i f he
      exact absurd (insert_error.mp he).2 (by omega)
    · simp at hfail
    · simp at hfail

/-- A mobile that is too long reaches a `sprintf` that overflows the buffer. -/
theorem sql_overflows {pb : Protobuf} {m : Bytes} {c : Int32} {codeReq loginReq : Bytes}
    (hd : Delivered pb m c codeReq loginReq) (h : 984 < (cStr m).length) : ¬ SqlFits pb m := by
  intro hfits
  have hinsert := insert_sql_length m
  have hbuf : sqlContentLen = 1024 := rfl
  by_cases hfit : (existSql m).length+1 ≤ sqlContentLen
  · obtain ⟨as,s,hr,hcall⟩ := reaches_insert m c hfit
    apply hfits c codeReq loginReq hd [] as s 1 (issuing c) none hr (Or.inr hcall)
    have he : UserService.insert s.table (issuing c).insert m = .error .outOfBounds :=
      insert_error.mpr ⟨rfl,by omega⟩
    simp only [Machine.Fails, machine, step, hcall, advance, he]
  · obtain ⟨s,hr,hcall,-⟩ := reaches_exist m c
    apply hfits c codeReq loginReq hd [] _ s 1 (issuing c) none hr (Or.inl hcall)
    have he : UserService.exist s.table (issuing c).select m = .error .outOfBounds :=
      exist_error.mpr ⟨rfl,by omega⟩
    simp only [Machine.Fails, machine, step, hcall, advance, he]

/-- The statements for a mobile that the framing lets through fit their buffer
exactly if the mobile has at most 984 bytes before its first NUL. -/
theorem sql_fits_iff (pb : Protobuf) (m : Bytes)
    (hd : ∃ c codeReq loginReq, Delivered pb m c codeReq loginReq) :
    SqlFits pb m ↔ (cStr m).length ≤ 984 := by
  obtain ⟨c,codeReq,loginReq,hd⟩ := hd
  refine ⟨fun h => ?_,sql_fits_of_short⟩
  by_contra hlong
  exact sql_overflows hd (by omega) h

/-- Every mobile whose requests stay below the frame limit is delivered. -/
theorem delivered_of_length (m : Bytes) (c : Int32) (h : m.length+22 ≤ maxMsgLen) :
    ∃ codeReq loginReq, Delivered proto2 m c codeReq loginReq := by
  have hmax : maxMsgLen < 2^31 := by decide
  have h1 := mobile_request_length ⟨m⟩
  have h2 := login_request_length ⟨m, c⟩
  simp only at h1 h2
  have hs1 : (proto2.mobileRequest.serializeToArray ⟨m⟩).length = _ :=
    proto2_lawful.mobileRequest.byte_size ⟨m⟩ (by omega)
  have hs2 : (proto2.loginRequest.serializeToArray ⟨m, c⟩).length = _ :=
    proto2_lawful.loginRequest.byte_size ⟨m, c⟩ (by omega)
  have hp1 := proto2_lawful.mobileRequest.parse_serialize ⟨m⟩ (by omega)
  have hp2 := proto2_lawful.loginRequest.parse_serialize ⟨m, c⟩ (by omega)
  refine ⟨_,_,⟨by rw [hs1]; omega,?_,by rw [hs2]; omega,?_⟩⟩
  · simp only [parseEvent, if_true, List.take_length, hp1]
  · rw [parseEvent, if_neg (by decide), if_pos rfl, List.take_length, hp2]

theorem c_str_replicate (n : ℕ) : (cStr (List.replicate n 49)).length = n := by
  simp [cStr]

theorem sql_fits_iff_short : SqlFits proto2 (List.replicate 11 49) ↔
    (cStr (List.replicate 11 49)).length ≤ 984 := by
  refine sql_fits_iff proto2 (List.replicate 11 49) ⟨7,delivered_of_length _ 7 ?_⟩
  decide

/-- A mobile of a thousand digits passes the framing and the verification. -/
theorem long_mobile_overflows :
    (∃ c codeReq loginReq, Delivered proto2 (List.replicate 1000 49) c codeReq loginReq) ∧
      ¬ SqlFits proto2 (List.replicate 1000 49) := by
  obtain ⟨codeReq,loginReq,hd⟩ := delivered_of_length (List.replicate 1000 49) 7
    (by rw [List.length_replicate]; decide)
  exact ⟨⟨7,codeReq,loginReq,hd⟩,sql_overflows hd (by rw [c_str_replicate]; decide)⟩

end SharedBike.SqlBuffer

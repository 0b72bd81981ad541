import SharedBike.ResponseFrames

/-!
# Reads that are not frames

The client keeps nothing between two reads. A read that ends inside a frame
shows it a message without its text, and a read that goes on past a frame takes
the magic word of the next one with it. So the responses are handled once each
only if every read is one frame.
-/

set_option autoImplicit false

namespace SharedBike.ResponseSegments
open LittleEndian LengthFrames Proto2 MarkedSegments
open SharedBike.Globals SharedBike.BikeProtocol SharedBike.NetworkInterface
open SharedBike.RequestReader SharedBike.Client SharedBike.ResponseStream SharedBike.ResponseFrames

def blankBuffer : Bytes := List.replicate bufferLen 0

/-- What the callback makes of one read into a buffer of zeros. -/
def answer (pb : Protobuf) (got : Bytes) : Option (ℕ × Response) :=
  match serverMsgCb pb blankBuffer 0 got with
  | .ok (.next _ (some h)) => some (h.eid, h.response)
  | _ => none

/-- The buffer of zeros after the read. -/
def stored (got : Bytes) : Bytes := got++List.replicate (bufferLen-got.length) 0

/-- The bytes that the callback gives to the parser. -/
def bodyOf (msg : Bytes) : Bytes :=
  (msg.drop 10).take (asI32 (read ((msg.drop 6).take 4))).toNat

theorem blank_length : blankBuffer.length = bufferLen := List.length_replicate

theorem store_blank {got : Bytes} (h : got.length < bufferLen) :
    storeRead blankBuffer got = .ok (stored got) := by
  obtain ⟨n,hn⟩ : ∃ n, bufferLen-got.length = n+1 := ⟨bufferLen-got.length-1,by omega⟩
  have hdrop : bufferLen-(got.length+1) = n := by omega
  rw [store_terminated blank_length h, stored, hn, List.replicate_succ, blankBuffer,
    List.drop_replicate, hdrop]

/-- What the parser leaves in the message object. -/
def parsed {M : Type} (c : Codec M) (msg : Bytes) : M :=
  (c.parseFromArray (bodyOf msg)).getD (c.leftover (bodyOf msg))

theorem parse_body_ok {M : Type} {c : Codec M} {msg : Bytes} {m : M}
    (h : parseBody c msg (asI32 (read ((msg.drop 6).take 4))) = .ok m) : m = parsed c msg := by
  rw [parseBody] at h
  split at h
  · simp at h
  · exact (Except.ok.inj h).symm

/-- What the callback handles is the message parsed from the buffer. -/
theorem react_handled {pb : Protobuf} {icode icode' : Int32} {msg : Bytes} {hd : Handled}
    (h : react pb icode msg = .ok (.next icode' (some hd))) : msg.take 4 = messageHeader ∧
      (hd.response = .mobileResponse (parsed pb.mobileResponse msg) ∨
        hd.response = .loginResponse (parsed pb.loginResponse msg)) := by
  rw [react] at h
  split at h
  · rename_i hmagic
    refine ⟨hmagic,?_⟩
    simp only at h
    split at h
    · cases hp : parseBody pb.mobileResponse msg (asI32 (read ((msg.drop 6).take 4))) with
      | error f => simp [hp, Except.map] at h
      | ok m =>
        simp only [hp, Except.map, Except.ok.injEq, Reaction.next.injEq, Option.some.injEq] at h
        rw [← h.2, parse_body_ok hp]
        exact Or.inl rfl
    · split at h
      · cases hp : parseBody pb.loginResponse msg (asI32 (read ((msg.drop 6).take 4))) with
        | error f => simp [hp, Except.map] at h
        | ok m =>
          simp only [hp, Except.map, Except.ok.injEq, Reaction.next.injEq, Option.some.injEq] at h
          rw [← h.2, parse_body_ok hp]
          exact Or.inr rfl
      · simp at h
  · simp at h

/-- An answer is read from the stored bytes, and only behind the magic word. -/
theorem answer_cases {pb : Protobuf} {got : Bytes} {a : ℕ × Response}
    (h : answer pb got = some a) :
    got.length < bufferLen ∧ (stored got).take 4 = messageHeader ∧
      (a.2 = .mobileResponse (parsed pb.mobileResponse (stored got)) ∨
        a.2 = .loginResponse (parsed pb.loginResponse (stored got))) := by
  rw [answer] at h
  split at h
  · rename_i icode hd hcb
    obtain rfl := Option.some.inj h
    rw [serverMsgCb] at hcb
    split at hcb
    · simp at hcb
    · by_cases hshort : got.length < bufferLen
      · rw [store_blank hshort] at hcb
        exact ⟨hshort,react_handled hcb⟩
      · rw [store_full blank_length (by omega)] at hcb
        simp [Except.bind] at hcb
  · simp at h

theorem answer_begins {pb : Protobuf} (got : Bytes) (h : (answer pb got).isSome) :
    Begins F B got := by
  obtain ⟨a,ha⟩ := Option.isSome_iff_exists.mp h
  obtain ⟨-,hmagic,-⟩ := answer_cases ha
  have hm : messageHeader = [F, B, 69, B] := by decide
  have hbyte : ∀ i < 4, (stored got)[i]? = [F, B, 69, B][i]? := by
    intro i hi
    rw [← hm, ← hmagic, List.getElem?_take_of_lt hi]
  by_cases hl : 2 ≤ got.length
  · have h0 := hbyte 0 (by decide)
    have h1 := hbyte 1 (by decide)
    obtain ⟨b,tail,rfl⟩ := List.exists_cons_of_length_pos (show 0 < got.length by omega)
    obtain ⟨c,rest,rfl⟩ := List.exists_cons_of_length_pos
      (show 0 < tail.length by rw [List.length_cons] at hl; omega)
    exact ⟨Option.some.inj h0,Option.some.inj h1⟩
  · -- the zero behind a shorter read stands where the magic word has its second byte
    have h1 := hbyte 1 (by decide)
    rw [stored, List.getElem?_append_right (by omega), List.getElem?_replicate] at h1
    split at h1
    · exact absurd (Option.some.inj h1) (by decide)
    · simp at h1

/-- A header whose length is cut off reads as the length zero. -/
theorem body_headless {got : Bytes} (h : got.length ≤ 6) : bodyOf (stored got) = [] := by
  have hdrop : (stored got).drop 6 = List.replicate (bufferLen-6) 0 := by
    rw [stored, List.drop_append, List.drop_eq_nil_of_le h, List.nil_append, List.drop_replicate]
    congr 1
    have hb : bufferLen = 1024 := rfl
    omega
  rw [bodyOf, hdrop]
  rfl

/-- From the seventh byte on the header is as it was sent, and the payload cut. -/
theorem stored_cut {pb : Protobuf} (hw : ResponseWire pb) (r : Rsp) {k : ℕ} (h7 : 7 ≤ k)
    (hk : k ≤ (r.frame pb).length) (hfit : (r.frame pb).length < bufferLen) : ∃ tail,
    stored ((r.frame pb).take k) =
      header wire r.ev.eid (payload r).length++(padded (payload r) (k-10)++tail) := by
  have hl := (payload_length r).2
  obtain ⟨i,rfl⟩ := Nat.exists_eq_add_of_le h7
  have hpad : stored ((r.frame pb).take (7+i)) =
      padded (r.frame pb) (7+i)++List.replicate (bufferLen-(r.frame pb).length) 0 := by
    rw [stored, padded, List.length_take_of_le hk, List.append_assoc,
      List.replicate_append_replicate]
    congr 2
    omega
  have hsplit : r.frame pb =
      [F, B, 69, B, UInt8.ofNat r.ev.eid, 0, UInt8.ofNat (payload r).length]++
        ([0, 0, 0]++payload r) := by
    rw [frame_eq hw, header_bytes r (by omega)]
    rfl
  have hzeros : padded ([0, 0, 0]++payload r) i = [0, 0, 0]++padded (payload r) (i-3) := by
    rcases i with _ | _ | _ | i
    · simp [padded, List.replicate_succ]
    · simp [padded, List.replicate_succ]
    · simp [padded, List.replicate_succ]
    · have := padded_append [0, 0, 0] (payload r) i
      rwa [show [(0 : UInt8), 0, 0].length+i = i+3 from Nat.add_comm 3 i] at this
  refine ⟨List.replicate (bufferLen-(r.frame pb).length) 0,?_⟩
  have hframe : padded (r.frame pb) (7+i) =
      header wire r.ev.eid (payload r).length++padded (payload r) (7+i-10) := by
    rw [hsplit, header_bytes r (by omega), show 7+i-10 = i-3 by omega]
    have := padded_append [F, B, 69, B, UInt8.ofNat r.ev.eid, 0, UInt8.ofNat (payload r).length]
      ([0, 0, 0]++payload r) i
    rw [hzeros] at this
    exact this
  rw [hpad, hframe, List.append_assoc]

/-- The parser finds no text of the response in a frame that is cut. -/
theorem cut_body {pb : Protobuf} (hw : ResponseWire pb) (r : Rsp) {k : ℕ}
    (hk : k < (r.frame pb).length) (hfit : (r.frame pb).length < bufferLen) :
    ∃ fs rest, Reads (bodyOf (stored ((r.frame pb).take k))) fs rest ∧ Stopped rest ∧
      bytesOf (textKey r) fs ≠ some (text r) := by
  by_cases h7 : 7 ≤ k
  · obtain ⟨tail,hst⟩ := stored_cut hw r h7 (by omega) hfit
    have hl := payload_length r
    have heid : r.ev.eid < 256^2 := by rcases eid_cases r with h | h <;> rw [h] <;> decide
    have hlen : (r.frame pb).length = 10+(payload r).length := by
      rw [frame_eq hw, List.length_append, header_length, wire_header_len]
    have hcut : (padded (payload r) (k-10)).length = (payload r).length := by
      rw [padded, List.length_append, List.length_take, List.length_replicate]
      omega
    have hbody : bodyOf (stored ((r.frame pb).take k)) = padded (payload r) (k-10) := by
      rw [hst, bodyOf, ← wire_len, len_header wire _ _ _ (by omega), asI32, if_pos (by omega),
        Int.toNat_natCast, List.drop_left' (by rw [header_length, wire_header_len]),
        List.take_left' hcut]
    rw [hbody]
    exact reads_cut (payload_plain r) (show k-10 < (payload r).length by omega)
  · rw [body_headless (by rw [List.length_take]; omega)]
    exact ⟨[],[],.stop [],Or.inl rfl,by simp [bytesOf]⟩

/-- Bytes without the text do not parse as a message with it. -/
theorem parsed_text {M : Type} {c : Codec M} {fields : M → List Field}
    {ofFields : List Field → Option M} {text : M → Option Bytes} {key : ℕ}
    (hw : OverWire c fields ofFields text key)
    (htext : ∀ fs m, ofFields fs = some m → text m = bytesOf key fs) {msg t rest : Bytes}
    {fs : List Field} (hread : Reads (bodyOf msg) fs rest) (hstop : Stopped rest)
    (hne : bytesOf key fs ≠ some t) : text (parsed c msg) ≠ some t := by
  rw [parsed]
  cases hp : c.parseFromArray (bodyOf msg) with
  | none =>
    rw [Option.getD_none]
    rcases hw.leftover _ fs rest hread hstop hp with h | h
    · simp [h]
    · rwa [h]
  | some m =>
    rw [Option.getD_some]
    rcases hstop with rfl | ⟨after,rfl⟩
    · rw [hw.parse_end _ fs hread] at hp
      rwa [htext fs m hp]
    · rw [hw.parse_zero _ fs after hread] at hp
      simp at hp

theorem mobile_text {fs : List Field} {m : MobileResponse}
    (h : MobileResponse.ofFields fs = some m) : m.data = bytesOf 3 fs := by
  obtain ⟨code,-,h⟩ := Option.bind_eq_some_iff.mp h
  obtain ⟨icode,-,rfl⟩ := Option.map_eq_some_iff.mp h
  rfl

theorem login_text {fs : List Field} {m : LoginResponse}
    (h : LoginResponse.ofFields fs = some m) : m.desc = bytesOf 2 fs := by
  obtain ⟨code,-,rfl⟩ := Option.map_eq_some_iff.mp h
  rfl

/-- A frame that is cut is not handled as the response in it. -/
theorem cut_unanswered {pb : Protobuf} (hpb : pb.Lawful) (hw : ResponseWire pb) (r : Rsp)
    {got later : Bytes} (hlater : later ≠ []) (hsplit : r.frame pb = got++later) :
    answer pb got ≠ some r.handled := by
  intro h
  obtain ⟨-,-,hmsg⟩ := answer_cases h
  have hpos := List.length_pos_of_ne_nil hlater
  have htake : got = (r.frame pb).take got.length := by rw [hsplit, List.take_left' rfl]
  obtain ⟨fs,rest,hread,hstop,hne⟩ := @cut_body pb hw r got.length
    (by rw [hsplit, List.length_append]; omega) (frame_short hpb r)
  rw [← htake] at hread
  cases r with
  | mobileCode code icode =>
    rcases hmsg with hm | hm
    · exact parsed_text hw.mobileResponse (fun _ _ => mobile_text) hread hstop hne
        (by rw [← Response.mobileResponse.inj hm]; rfl)
    · exact absurd hm (by simp [Rsp.handled])
  | login code =>
    rcases hmsg with hm | hm
    · exact absurd hm (by simp [Rsp.handled])
    · exact parsed_text hw.loginResponse (fun _ _ => login_text) hread hstop hne
        (by rw [← Response.loginResponse.inj hm]; rfl)

/-- What is handled does not depend on the `icode` that the client holds. -/
theorem react_icode {pb : Protobuf} {icode icode' : Int32} (icode₀ : Int32) {msg : Bytes}
    {hd : Option Handled} (h : react pb icode msg = .ok (.next icode' hd)) :
    ∃ i, react pb icode₀ msg = .ok (.next i hd) := by
  simp only [react] at h ⊢
  split_ifs at h ⊢ with hmagic hmobile hlogin
  · cases hp : parseBody pb.mobileResponse msg (asI32 (read ((msg.drop 6).take 4))) with
    | error f => simp [hp, Except.map] at h
    | ok m =>
      simp only [hp, Except.map, Except.ok.injEq, Reaction.next.injEq] at h
      exact ⟨m.icode,by rw [← h.2]; rfl⟩
  · cases hp : parseBody pb.loginResponse msg (asI32 (read ((msg.drop 6).take 4))) with
    | error f => simp [hp, Except.map] at h
    | ok m =>
      simp only [hp, Except.map, Except.ok.injEq, Reaction.next.injEq] at h
      exact ⟨icode₀,by rw [← h.2]; rfl⟩
  · simp only [Except.ok.injEq, Reaction.next.injEq] at h
    exact ⟨icode₀,by rw [h.2]⟩
  · simp only [Except.ok.injEq, Reaction.next.injEq] at h
    exact ⟨icode₀,by rw [h.2]⟩

theorem react_next (pb : Protobuf) (icode : Int32) (msg : Bytes) :
    react pb icode msg ≠ .ok .exit := by
  intro h
  simp only [react] at h
  split_ifs at h
  · cases hp : parseBody pb.mobileResponse msg (asI32 (read ((msg.drop 6).take 4))) <;>
      simp [hp, Except.map] at h
  · cases hp : parseBody pb.loginResponse msg (asI32 (read ((msg.drop 6).take 4))) <;>
      simp [hp, Except.map] at h
  · simp at h
  · simp at h

theorem handled_answer {pb : Protobuf} {icode icode' : Int32} {got : Bytes}
    {hd : Option Handled} (h : serverMsgCb pb blankBuffer icode got = .ok (.next icode' hd)) :
    answer pb got = hd.map fun h => (h.eid, h.response) := by
  rw [serverMsgCb] at h
  split at h
  · simp at h
  · rename_i hne
    cases hst : storeRead blankBuffer got with
    | error f => simp [hst, Except.bind] at h
    | ok msg =>
      rw [hst, Except.bind] at h
      obtain ⟨i,hi⟩ := react_icode 0 h
      have hcb : serverMsgCb pb blankBuffer 0 got = .ok (.next i hd) := by
        rw [serverMsgCb, if_neg hne, hst, Except.bind, hi]
      rw [answer, hcb]
      cases hd <;> rfl

theorem deliver_answers {pb : Protobuf} {icode icode' : Int32} {reads : List Bytes}
    {hs : List (ℕ × Response)} (hne : ∀ r ∈ reads, r ≠ [])
    (h : deliver pb icode (reads.map fun r => (blankBuffer, r)) = .ok (icode', hs)) :
    reads.filterMap (answer pb) = hs := by
  induction reads generalizing icode icode' hs with
  | nil =>
    obtain ⟨-,rfl⟩ := Prod.mk.inj (Except.ok.inj h)
    rfl
  | cons r reads ih =>
    rw [List.map_cons, deliver] at h
    split at h
    · simp at h
    · -- the client exits on an empty read only
      rename_i hexit
      rw [serverMsgCb, if_neg (hne r (by simp))] at hexit
      cases hst : storeRead blankBuffer r with
      | error f => simp [hst, Except.bind] at hexit
      | ok msg =>
        rw [hst, Except.bind] at hexit
        exact absurd hexit (react_next _ _ _)
    · rename_i icode₁ hd hcb
      cases hrest : deliver pb icode₁ (reads.map fun r => (blankBuffer, r)) with
      | error f => simp [hrest, Except.map] at h
      | ok out =>
        simp only [hrest, Except.map, Except.ok.injEq] at h
        have hlater := ih (fun r' hr' => hne r' (by simp [hr'])) hrest
        rw [List.filterMap_cons, handled_answer hcb, hlater, ← (Prod.mk.inj h).2]
        cases hd <;> rfl

/-- Among all buffers there are those of zeros. -/
theorem reads_deliver {pb : Protobuf} {rs : List Rsp} {reads : List Bytes}
    (h : HandledOnce pb rs reads) (icode : Int32) :
    deliver pb icode (reads.map fun r => (blankBuffer, r)) =
      .ok (rs.foldl (fun icode r => r.store icode) icode, rs.map Rsp.handled) := by
  have hzip : (reads.map fun _ => blankBuffer).zip reads =
      reads.map fun r => (blankBuffer, r) := by
    have := @List.zip_map' _ _ _ (fun _ => blankBuffer) (fun r => r) reads
    rwa [List.map_id'] at this
  rw [← hzip]
  apply h icode _ (List.length_map ..)
  intro b hb
  obtain ⟨_,-,rfl⟩ := List.mem_map.mp hb
  exact List.length_replicate

/-- The client handles every response once and in order exactly if every read is
one whole frame. -/
theorem handled_once_iff (pb : Protobuf) (hpb : pb.Lawful) (hw : ResponseWire pb)
    (rs : List Rsp) (reads : List Bytes)
    (hsame : reads.flatten = (rs.map (Rsp.frame pb)).flatten)
    (hlen : ∀ r ∈ reads, 1 ≤ r.length ∧ r.length ≤ bufferLen) :
    HandledOnce pb rs reads ↔ reads = rs.map (Rsp.frame pb) := by
  constructor
  · intro h
    have hne : ∀ r ∈ reads, r ≠ [] := fun r hr => List.ne_nil_of_length_pos (hlen r hr).1
    have hans := deliver_answers hne (reads_deliver h 0)
    have hfst : (rs.map fun r => (r.frame pb, r.handled)).map Prod.fst = rs.map (Rsp.frame pb) := by
      simp [Function.comp_def]
    have hsnd : (rs.map fun r => (r.frame pb, r.handled)).map Prod.snd = rs.map Rsp.handled := by
      simp [Function.comp_def]
    rw [← hfst] at hsame ⊢
    apply pieces_are_segments answer_begins _ _ _ reads hne hsame (hans.trans hsnd.symm)
    · intro s hs
      obtain ⟨r,-,rfl⟩ := List.mem_map.mp hs
      exact frame_marked hw r
    · intro s hs got later _ hlater hsplit
      obtain ⟨r,-,rfl⟩ := List.mem_map.mp hs
      exact cut_unanswered hpb hw r hlater hsplit
  · intro h
    rw [h]
    exact whole_frames_handled hpb rs

/-- A code and a login are answered. -/
def twoResponses : List Rsp := [.mobileCode 200 7, .login 200]

/-- The two frames come in one read. -/
def joinedReads : List Bytes := [(twoResponses.map (Rsp.frame proto2)).flatten]

/-- The first frame comes in two reads, cut inside its text. -/
def cutReads : List Bytes :=
  [(Rsp.frame proto2 (.mobileCode 200 7)).take 20, (Rsp.frame proto2 (.mobileCode 200 7)).drop 20,
    Rsp.frame proto2 (.login 200)]

/-- Joined frames lose the second response, and a cut frame loses its text. -/
theorem segments_mishandled :
    (joinedReads.flatten = (twoResponses.map (Rsp.frame proto2)).flatten ∧
      (∀ r ∈ joinedReads, 1 ≤ r.length ∧ r.length ≤ bufferLen) ∧
      deliver proto2 0 (joinedReads.map fun r => (blankBuffer, r)) =
        .ok (7, [(Rsp.mobileCode 200 7).handled]) ∧
      ¬ HandledOnce proto2 twoResponses joinedReads) ∧
    (cutReads.flatten = (twoResponses.map (Rsp.frame proto2)).flatten ∧
      (∀ r ∈ cutReads, 1 ≤ r.length ∧ r.length ≤ bufferLen) ∧
      ¬ HandledOnce proto2 twoResponses cutReads) := by
  have hjoined : deliver proto2 0 (joinedReads.map fun r => (blankBuffer, r)) =
      .ok (7, [(Rsp.mobileCode 200 7).handled]) := by decide +kernel
  have hcut : deliver proto2 0 (cutReads.map fun r => (blankBuffer, r)) ≠
      .ok (twoResponses.foldl (fun icode r => r.store icode) 0, twoResponses.map Rsp.handled) := by
    decide +kernel
  refine ⟨⟨by decide +kernel,by decide +kernel,hjoined,fun h => ?_⟩,
    ⟨by decide +kernel,by decide +kernel,fun h => hcut (reads_deliver h 0)⟩⟩
  have hboth := hjoined.symm.trans (reads_deliver h 0)
  simp [twoResponses] at hboth

theorem handled_once_iff_frames :
    HandledOnce proto2 twoResponses (twoResponses.map (Rsp.frame proto2)) :=
  (handled_once_iff proto2 proto2_lawful proto2_response_wire twoResponses _ rfl
    (by decide +kernel)).mpr rfl

end SharedBike.ResponseSegments

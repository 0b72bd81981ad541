import SharedBike.ResponseStream
import SharedBike.Library.Proto2Cuts
import SharedBike.Library.MarkedSegments

/-!
# The bytes of a response frame

A response is a message of one or two numbers and a text from the table of
reasons. Its frame begins with the magic word, and no other two bytes in it, or
across its end, begin one.
-/

set_option autoImplicit false

namespace SharedBike.ResponseFrames
open LittleEndian LengthFrames Proto2 MarkedSegments
open SharedBike.Globals SharedBike.BikeProtocol SharedBike.Events SharedBike.NetworkInterface
open SharedBike.RequestReader SharedBike.ResponseStream

/-- What the runtime does with the bytes of a message whose `text` is field
`key`: it writes the fields in order, reads them back to the end of the bytes,
gives up at a key that is zero, and has then left in the object no text or one
that it has read. -/
structure OverWire {M : Type} (c : Codec M) (fields : M → List Field)
    (ofFields : List Field → Option M) (text : M → Option Bytes) (key : ℕ) : Prop where
  serialize : ∀ m, (encode (fields m)).length < 2^31 → c.serializeToArray m = encode (fields m)
  parse_end : ∀ b fs, Reads b fs [] → c.parseFromArray b = ofFields fs
  parse_zero : ∀ b fs after, Reads b fs (0::after) → c.parseFromArray b = none
  leftover : ∀ b fs rest, Reads b fs rest → Stopped rest → c.parseFromArray b = none →
    text (c.leftover b) = none ∨ text (c.leftover b) = bytesOf key fs

/-- The runtime under the two responses. -/
structure ResponseWire (pb : Protobuf) : Prop where
  mobileResponse : OverWire pb.mobileResponse MobileResponse.fields MobileResponse.ofFields
    MobileResponse.data 3
  loginResponse : OverWire pb.loginResponse LoginResponse.fields LoginResponse.ofFields
    LoginResponse.desc 2

theorem wire_codec_over_wire {M : Type} (fields : M → List Field)
    (ofFields : List Field → Option M) (blank : M) (text : M → Option Bytes) (key : ℕ)
    (hblank : text blank = none) :
    OverWire (wireCodec fields ofFields blank) fields ofFields text key where
  serialize m hm := if_pos hm
  parse_end b fs h := by
    show (parse b).bind ofFields = _
    rw [(parse_stopped h).1 rfl, Option.bind_some]
  parse_zero b fs after h := by
    show (parse b).bind ofFields = _
    rw [(parse_stopped h).2 after rfl, Option.bind_none]
  leftover _ _ _ _ _ _ := Or.inl hblank

theorem proto2_response_wire : ResponseWire proto2 where
  mobileResponse := by apply wire_codec_over_wire; rfl
  loginResponse := by apply wire_codec_over_wire; rfl

/-- The number fields of a response. -/
def numbers : Rsp → List Field
  | .mobileCode code icode => [⟨1, .number (ofInt32 code)⟩, ⟨2, .number (ofInt32 icode)⟩]
  | .login code => [⟨1, .number (ofInt32 code)⟩]

def textKey : Rsp → ℕ
  | .mobileCode _ _ => 3
  | .login _ => 2

def text : Rsp → Bytes
  | .mobileCode code _ => getReasonByErrorCode code
  | .login code => getReasonByErrorCode code

def payload (r : Rsp) : Bytes := encode (numbers r++[⟨textKey r, .bytes (text r)⟩])

/-- The first two bytes of the magic word. -/
abbrev F : UInt8 := 70
abbrev B : UInt8 := 66

/-- A text without a zero and without the beginning of a frame. -/
structure Quiet (t : Bytes) : Prop where
  some_text : t ≠ []
  no_zero : 0 ∉ t
  unmarked : marks F B t = 0
  ends : t.getLast? ≠ some F

theorem reason_quiet (code : Int32) : Quiet (getReasonByErrorCode code) := by
  have hall : ∀ s ∈ eer.map Prod.snd, ascii s ≠ [] ∧ 0 ∉ ascii s ∧ marks F B (ascii s) = 0 ∧
      (ascii s).getLast? ≠ some F := by decide
  have hnull : (EErrorCode.null, "Undefined.") ∈ eer := by simp [eer]
  obtain ⟨h1,h2,h3,h4⟩ := hall _ (reason_found code hnull)
  exact ⟨h1,h2,h3,h4⟩

theorem text_quiet (r : Rsp) : Quiet (text r) ∧ (text r).length ≤ 19 := by
  cases r <;> exact ⟨reason_quiet _,reason_length _⟩

theorem payload_plain (r : Rsp) : Plain (numbers r) (textKey r) (text r) := by
  have ht := text_quiet r
  refine ⟨?_,by cases r <;> simp [textKey],by omega,ht.1.some_text,ht.1.no_zero⟩
  have hnum : ∀ (k : ℕ) (x : Int32), 1 ≤ k ∧ k < 16 → Field.Valid ⟨k, .number (ofInt32 x)⟩ :=
    fun k x hk => ⟨hk.1,show k < 2^29 by omega,ofInt32_lt x⟩
  intro f hf
  cases r with
  | mobileCode code icode =>
    rcases List.mem_cons.mp hf with rfl | hf
    · exact ⟨hnum 1 code (by decide),by simp,_,rfl⟩
    · obtain rfl := List.mem_singleton.mp hf
      exact ⟨hnum 2 icode (by decide),by simp,_,rfl⟩
  | login code =>
    obtain rfl := List.mem_singleton.mp hf
    exact ⟨hnum 1 code (by decide),by simp,_,rfl⟩

theorem payload_length (r : Rsp) : 1 ≤ (payload r).length ∧ (payload r).length < 128 := by
  have ht := (text_quiet r).2
  cases r with
  | mobileCode code icode =>
    have := mobile_response_length code icode (getReasonByErrorCode code)
    exact ⟨this.1,Nat.lt_of_le_of_lt this.2 (by simp only [text] at ht; omega)⟩
  | login code =>
    have := login_response_length code (getReasonByErrorCode code)
    exact ⟨this.1,Nat.lt_of_le_of_lt this.2 (by simp only [text] at ht; omega)⟩

/-- The frame of a response, byte by byte up to its payload. -/
theorem frame_eq {pb : Protobuf} (hw : ResponseWire pb) (r : Rsp) :
    r.frame pb = header wire r.ev.eid (payload r).length++payload r := by
  have hl := (payload_length r).2
  have hser : r.ev.serializeToArray pb = payload r := by
    cases r with
    | mobileCode code icode => exact hw.mobileResponse.serialize _ (Nat.lt_trans hl (by decide))
    | login code => exact hw.loginResponse.serialize _ (Nat.lt_trans hl (by decide))
  rw [Rsp.frame, responseFrame, IEvent.byteSize, hser]
  rfl

theorem marks_groups (k n : ℕ) : marks F B (groups k n) = 0 := by
  induction k generalizing n with
  | zero => rfl
  | succ k ih =>
    rw [groups]
    split
    · rfl
    · have hb : (UInt8.ofNat (n%128+128)).toNat = n%128+128 := by
        rw [UInt8.toNat_ofNat']; omega
      rw [marks_cons_ne fun hx => ?_, ih]
      have := congrArg UInt8.toNat hx
      rw [hb] at this
      have : F.toNat = 70 := rfl
      omega

theorem byte_ne (b : UInt8) {n : ℕ} (hn : n < 256) (h : n ≠ b.toNat) : UInt8.ofNat n ≠ b := by
  rintro rfl
  rw [UInt8.toNat_ofNat'] at h
  omega

/-- Neither the fields of a payload nor the places where they meet hold a mark. -/
theorem marks_fields {nums : List Field} {k : ℕ} {t : Bytes} (h : Plain nums k t)
    (hk : k < 8) (ht : Quiet t) (hl : t.length ≤ 19) :
    marks F B (encode (nums++[⟨k, .bytes t⟩])) = 0 ∧
      (encode (nums++[⟨k, .bytes t⟩])).head? ≠ some B := by
  induction nums with
  | nil =>
    have hform : encode ([]++[⟨k, .bytes t⟩]) =
        UInt8.ofNat (k*8+2)::UInt8.ofNat t.length::t := by
      have hkey : varint (k*8+2) = [UInt8.ofNat (k*8+2)] := varint_one (by omega)
      have hlen : varint t.length = [UInt8.ofNat t.length] := varint_one (by omega)
      simp only [encode, List.nil_append, List.flatMap_singleton, Field.encode, hkey, hlen,
        List.cons_append]
    rw [hform]
    constructor
    · rw [marks_cons_ne (byte_ne F (by omega) (show k*8+2 ≠ 70 by omega)),
        marks_cons_ne (byte_ne F (by omega) (show t.length ≠ 70 by omega)),
        ht.unmarked]
    · simpa using byte_ne B (by omega) (show k*8+2 ≠ 66 by omega)
  | cons f nums ih =>
    obtain ⟨hf,hkey,n,hn⟩ := h.numbers f (by simp)
    have hnums : Plain nums k t :=
      ⟨fun g hg => h.numbers g (by simp [hg]),h.key,h.short,h.some_text,h.no_zero⟩
    obtain ⟨hmarks,hhead⟩ := ih hnums
    have hform : encode ((f::nums)++[⟨k, .bytes t⟩]) =
        UInt8.ofNat (f.key*8)::(varint n++encode (nums++[⟨k, .bytes t⟩])) := by
      have hone : varint (f.key*8) = [UInt8.ofNat (f.key*8)] := varint_one (by omega)
      have henc : f.encode = UInt8.ofNat (f.key*8)::varint n := by
        rw [Field.encode, hn]
        simp only [hone, List.cons_append, List.nil_append]
      show f.encode++encode (nums++[⟨k, .bytes t⟩]) = _
      rw [henc, List.cons_append]
    rw [hform]
    constructor
    · rw [marks_cons_ne (byte_ne F (by omega) (show f.key*8 ≠ 70 by omega)),
        marks_append fun _ => hhead, varint, marks_groups, hmarks]
    · simpa using byte_ne B (by omega) (show f.key*8 ≠ 66 by omega)

theorem eid_cases (r : Rsp) : r.ev.eid = 2 ∨ r.ev.eid = 4 := by
  cases r with
  | mobileCode code icode => exact Or.inl rfl
  | login code => exact Or.inr rfl

theorem header_bytes (r : Rsp) {len : ℕ} (hl : len < 256) : header wire r.ev.eid len =
    [F, B, 69, B, UInt8.ofNat r.ev.eid, 0, UInt8.ofNat len, 0, 0, 0] := by
  have hq : len/256 = 0 := by omega
  have hlen : write 4 len = [UInt8.ofNat len, 0, 0, 0] := by
    rw [write, hq]
    rfl
  have hmagic : wire.magic = [F, B, 69, B] := by decide
  have htag : write 2 r.ev.eid = [UInt8.ofNat r.ev.eid, 0] := by
    rcases eid_cases r with h | h <;> rw [h] <;> decide
  rw [header, hlen, hmagic, htag]
  rfl

/-- A frame begins with the magic word, and nothing else in it or after its end
looks like one. -/
theorem frame_marked {pb : Protobuf} (hw : ResponseWire pb) (r : Rsp) :
    Marked F B (r.frame pb) := by
  have hl := (payload_length r).2
  have ht := text_quiet r
  have hk : textKey r < 8 := by cases r <;> simp [textKey]
  have heid : UInt8.ofNat r.ev.eid ≠ F := by
    rcases eid_cases r with h | h <;> rw [h] <;> decide
  obtain ⟨hmarks,-⟩ := marks_fields (payload_plain r) hk ht.1 ht.2
  rw [frame_eq hw, header_bytes r (by omega)]
  constructor
  · exact ⟨rfl,rfl⟩
  · have hrest : ∀ l, marks F B (0::l) = marks F B l := fun l => marks_cons_ne (by decide)
    simp only [List.cons_append, List.nil_append]
    rw [marks_cons, marks_cons_ne (by decide), marks_cons_ne (by decide),
      marks_cons_ne (by decide), marks_cons_ne heid, hrest, marks_follower_ne (by decide), hrest,
      hrest, hrest, payload, hmarks]
    split <;> omega
  · obtain ⟨a,ha⟩ : ∃ a, payload r = a++text r := by
      refine ⟨encode (numbers r)++(varint (textKey r*8+2)++varint (text r).length),?_⟩
      simp [payload, encode, Field.encode]
    rw [ha, ← List.append_assoc, List.getLast?_append_of_ne_nil _ ht.1.some_text]
    exact ht.1.ends

end SharedBike.ResponseFrames

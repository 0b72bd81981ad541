import SharedBike.Globals
import SharedBike.Library.Proto2
import Mathlib.Algebra.Order.BigOperators.Group.List

/-!
# Messages of the bike protocol

The protobuf runtime is a parameter: one codec for each message that the
server or the client touches. Its laws are those of the version 2 wire
format, which is also given as a concrete runtime.
-/

set_option autoImplicit false

namespace SharedBike.BikeProtocol
open LittleEndian Proto2

structure MobileRequest where
  mobile : Bytes
  deriving DecidableEq, Repr

structure MobileResponse where
  code : Int32
  icode : Int32
  data : Option Bytes
  deriving DecidableEq, Repr

structure LoginRequest where
  mobile : Bytes
  icode : Int32
  deriving DecidableEq, Repr

structure LoginResponse where
  code : Int32
  desc : Option Bytes
  deriving DecidableEq, Repr

/-- `leftover` is what a failed parse leaves in the message object. The
runtime refuses to write a message over its size limit. -/
structure Codec (M : Type) where
  serializeToArray : M → Bytes
  size_lt : ∀ m, (serializeToArray m).length < 2^31
  parseFromArray : Bytes → Option M
  leftover : Bytes → M

def Codec.byteSize {M : Type} (c : Codec M) (m : M) : ℕ := (c.serializeToArray m).length

structure Protobuf where
  mobileRequest : Codec MobileRequest
  mobileResponse : Codec MobileResponse
  loginRequest : Codec LoginRequest
  loginResponse : Codec LoginResponse

def optionalBytes (key : ℕ) : Option Bytes → List Field
  | none => []
  | some b => [⟨key, .bytes b⟩]

def MobileRequest.fields (m : MobileRequest) : List Field := [⟨1, .bytes m.mobile⟩]

def MobileResponse.fields (m : MobileResponse) : List Field :=
  [⟨1, .number (ofInt32 m.code)⟩, ⟨2, .number (ofInt32 m.icode)⟩]++optionalBytes 3 m.data

def LoginRequest.fields (m : LoginRequest) : List Field :=
  [⟨1, .bytes m.mobile⟩, ⟨2, .number (ofInt32 m.icode)⟩]

def LoginResponse.fields (m : LoginResponse) : List Field :=
  [⟨1, .number (ofInt32 m.code)⟩]++optionalBytes 2 m.desc

def MobileRequest.ofFields (fs : List Field) : Option MobileRequest :=
  (bytesOf 1 fs).map MobileRequest.mk

def MobileResponse.ofFields (fs : List Field) : Option MobileResponse :=
  (numberOf 1 fs).bind fun code => (numberOf 2 fs).map fun icode =>
    ⟨toInt32 code, toInt32 icode, bytesOf 3 fs⟩

def LoginRequest.ofFields (fs : List Field) : Option LoginRequest :=
  (bytesOf 1 fs).bind fun mobile => (numberOf 2 fs).map fun icode => ⟨mobile, toInt32 icode⟩

def LoginResponse.ofFields (fs : List Field) : Option LoginResponse :=
  (numberOf 1 fs).map fun code => ⟨toInt32 code, bytesOf 2 fs⟩

/-- What the server and the client rely on: a message within the size limit
of the runtime reads back, and its size is that of its wire fields. -/
structure Codec.Lawful {M : Type} (c : Codec M) (fields : M → List Field) : Prop where
  parse_serialize : ∀ m, (encode (fields m)).length < 2^31 →
    c.parseFromArray (c.serializeToArray m) = some m
  byte_size : ∀ m, (encode (fields m)).length < 2^31 →
    c.byteSize m = (encode (fields m)).length

structure Protobuf.Lawful (pb : Protobuf) : Prop where
  mobileRequest : pb.mobileRequest.Lawful MobileRequest.fields
  mobileResponse : pb.mobileResponse.Lawful MobileResponse.fields
  loginRequest : pb.loginRequest.Lawful LoginRequest.fields
  loginResponse : pb.loginResponse.Lawful LoginResponse.fields

def wireCodec {M : Type} (fields : M → List Field) (ofFields : List Field → Option M)
    (blank : M) : Codec M where
  serializeToArray m := if (encode (fields m)).length < 2^31 then encode (fields m) else []
  size_lt m := by split <;> simp_all
  parseFromArray b := (parse b).bind ofFields
  leftover _ := blank

def proto2 : Protobuf where
  mobileRequest := wireCodec MobileRequest.fields MobileRequest.ofFields ⟨[]⟩
  mobileResponse := wireCodec MobileResponse.fields MobileResponse.ofFields ⟨0, 0, none⟩
  loginRequest := wireCodec LoginRequest.fields LoginRequest.ofFields ⟨[], 0⟩
  loginResponse := wireCodec LoginResponse.fields LoginResponse.ofFields ⟨0, none⟩

theorem field_length_le (fs : List Field) (f : Field) (hf : f ∈ fs) :
    f.encode.length ≤ (encode fs).length := by
  rw [encode, List.length_flatMap]
  exact List.single_le_sum (by simp) _ (List.mem_map_of_mem hf)

theorem bytes_field_length (k : ℕ) (b : Bytes) :
    b.length ≤ (Field.encode ⟨k, .bytes b⟩).length := by
  simp only [Field.encode, List.length_append]
  omega

/-- A short encoding has only fields that fit their wire types. -/
theorem fields_valid {fs : List Field} (hl : (encode fs).length < 2^31)
    (hk : ∀ f ∈ fs, 1 ≤ f.key ∧ f.key < 2^29)
    (hv : ∀ f ∈ fs, (∃ x, f.value = .number (ofInt32 x)) ∨ ∃ b, f.value = .bytes b) :
    ∀ f ∈ fs, f.Valid := by
  intro f hf
  refine ⟨(hk f hf).1,(hk f hf).2,?_⟩
  have hle := field_length_le fs f hf
  rcases hv f hf with ⟨x,hx⟩ | ⟨b,hb⟩
  · rw [hx]; exact ofInt32_lt x
  · obtain ⟨k,v⟩ := f
    simp only at hb
    subst hb
    have := bytes_field_length k b
    show b.length < 2^64
    omega

theorem wire_lawful {M : Type} (fields : M → List Field) (ofFields : List Field → Option M)
    (blank : M) (hk : ∀ m, ∀ f ∈ fields m, 1 ≤ f.key ∧ f.key < 2^29)
    (hv : ∀ m, ∀ f ∈ fields m, (∃ x, f.value = .number (ofInt32 x)) ∨ ∃ b, f.value = .bytes b)
    (hread : ∀ m, ofFields (fields m) = some m) :
    (wireCodec fields ofFields blank).Lawful fields := by
  constructor
  · intro m hm
    have hvalid := fields_valid hm (hk m) (hv m)
    simp only [wireCodec, if_pos hm, parse_encode _ hvalid, Option.bind_some, hread]
  · intro m hm
    simp only [Codec.byteSize, wireCodec, if_pos hm]

theorem proto2_lawful : proto2.Lawful := by
  constructor <;> apply wire_lawful
  · simp [MobileRequest.fields]
  · simp [MobileRequest.fields]
  · simp [MobileRequest.fields, MobileRequest.ofFields, bytesOf]
  · intro m; cases h : m.data <;> simp [MobileResponse.fields, optionalBytes, h]
  · intro m; cases h : m.data <;> simp [MobileResponse.fields, optionalBytes, h]
  · rintro ⟨c,i,d⟩
    cases d <;> simp [MobileResponse.fields, MobileResponse.ofFields, optionalBytes,
      bytesOf, numberOf, toInt32_ofInt32]
  · simp [LoginRequest.fields]
  · simp [LoginRequest.fields]
  · simp [LoginRequest.fields, LoginRequest.ofFields, bytesOf, numberOf, toInt32_ofInt32]
  · intro m; cases h : m.desc <;> simp [LoginResponse.fields, optionalBytes, h]
  · intro m; cases h : m.desc <;> simp [LoginResponse.fields, optionalBytes, h]
  · rintro ⟨c,d⟩
    cases d <;> simp [LoginResponse.fields, LoginResponse.ofFields, optionalBytes,
      bytesOf, numberOf, toInt32_ofInt32]

theorem mobile_request_length (m : MobileRequest) :
    1 ≤ (encode m.fields).length ∧ (encode m.fields).length ≤ m.mobile.length+11 := by
  have h1 : (varint (1*8+2)).length = 1 := varint_small (by decide)
  have h2 := varint_length m.mobile.length
  simp only [MobileRequest.fields, encode, List.flatMap_cons, List.flatMap_nil, List.append_nil,
    Field.encode, List.length_append, h1]
  omega

theorem login_request_length (m : LoginRequest) :
    1 ≤ (encode m.fields).length ∧ (encode m.fields).length ≤ m.mobile.length+22 := by
  have h1 : (varint (1*8+2)).length = 1 := varint_small (by decide)
  have h2 : (varint (2*8)).length = 1 := varint_small (by decide)
  have h3 := varint_length m.mobile.length
  have h4 := varint_length (ofInt32 m.icode)
  simp only [LoginRequest.fields, encode, List.flatMap_cons, List.flatMap_nil, List.append_nil,
    Field.encode, List.length_append, h1, h2]
  omega

theorem mobile_response_length (code icode : Int32) (data : Bytes) :
    1 ≤ (encode (MobileResponse.fields ⟨code, icode, some data⟩)).length ∧
      (encode (MobileResponse.fields ⟨code, icode, some data⟩)).length ≤ data.length+33 := by
  have h1 : (varint (1*8)).length = 1 := varint_small (by decide)
  have h2 : (varint (2*8)).length = 1 := varint_small (by decide)
  have h3 : (varint (3*8+2)).length = 1 := varint_small (by decide)
  have h4 := varint_length (ofInt32 code)
  have h5 := varint_length (ofInt32 icode)
  have h6 := varint_length data.length
  simp only [MobileResponse.fields, optionalBytes, encode, List.cons_append, List.nil_append,
    List.flatMap_cons, List.flatMap_nil, List.append_nil, Field.encode, List.length_append, h1,
    h2, h3]
  omega

theorem login_response_length (code : Int32) (desc : Bytes) :
    1 ≤ (encode (LoginResponse.fields ⟨code, some desc⟩)).length ∧
      (encode (LoginResponse.fields ⟨code, some desc⟩)).length ≤ desc.length+22 := by
  have h1 : (varint (1*8)).length = 1 := varint_small (by decide)
  have h2 : (varint (2*8+2)).length = 1 := varint_small (by decide)
  have h3 := varint_length (ofInt32 code)
  have h4 := varint_length desc.length
  simp only [LoginResponse.fields, optionalBytes, encode, List.cons_append, List.nil_append,
    List.flatMap_cons, List.flatMap_nil, List.append_nil, Field.encode, List.length_append, h1, h2]
  omega

end SharedBike.BikeProtocol

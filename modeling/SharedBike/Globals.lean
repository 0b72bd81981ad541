import SharedBike.Library.LittleEndian
import Mathlib.Data.List.Basic
import Mathlib.Data.List.TakeWhile

/-!
# Global types, event identifiers and memory faults

Unsigned 32-bit arithmetic is written out modulo `2^32`, a buffer is a byte
list of fixed length, and every undefined operation of the program is a
fault that ends the run.
-/

set_option autoImplicit false

namespace SharedBike.Globals
open LittleEndian

def maxMsgLen : ℕ := 367280

def u32 (n : ℕ) : ℕ := n%2^32

def u32Sub (a b : ℕ) : ℕ := u32 (a+2^32-b)

theorem u32_small {n : ℕ} (h : n < 2^32) : u32 n = n := Nat.mod_eq_of_lt h

theorem u32_sub_small {a b : ℕ} (h : b ≤ a) (ha : a < 2^32) : u32Sub a b = a-b := by
  unfold u32Sub u32
  omega

/-- A 32-bit pattern read through an `i32` pointer. -/
def asI32 (n : ℕ) : ℤ := if n < 2^31 then n else n-2^32

def i32ToU32 (z : ℤ) : ℕ := (z%2^32).toNat

theorem i32_to_u32_as {n : ℕ} (h : n < 2^32) : i32ToU32 (asI32 n) = n := by
  unfold i32ToU32 asI32
  split <;> omega

inductive Fault where
  | useAfterFree
  | wildPointer
  | nullPointer
  | outOfBounds
  | missingReturn
  deriving DecidableEq, Repr

/-- Copies bytes into a buffer; the buffer keeps its length. -/
def storeAt (buf : Bytes) (off : ℕ) (data : Bytes) : Except Fault Bytes :=
  if off+data.length ≤ buf.length then
    .ok (buf.take off++data++buf.drop (off+data.length))
  else .error .outOfBounds

theorem store_at_ok {buf data : Bytes} {off : ℕ} (h : off+data.length ≤ buf.length) :
    storeAt buf off data = .ok (buf.take off++data++buf.drop (off+data.length)) :=
  if_pos h

theorem store_length {buf data : Bytes} {off : ℕ} (h : off+data.length ≤ buf.length) :
    (buf.take off++data++buf.drop (off+data.length)).length = buf.length := by
  simp; omega

theorem store_take {buf data : Bytes} {off : ℕ} (h : off+data.length ≤ buf.length) :
    (buf.take off++data++buf.drop (off+data.length)).take (off+data.length) =
      buf.take off++data := by
  rw [List.take_left']
  simp; omega

/-- A store inside the buffer keeps its length and what lies before the store. -/
theorem store_next {buf data : Bytes} {off : ℕ} (h : off+data.length ≤ buf.length) :
    ∃ buf', storeAt buf off data = .ok buf' ∧ buf'.length = buf.length ∧
      buf'.take (off+data.length) = buf.take off++data :=
  ⟨_,store_at_ok h,store_length h,store_take h⟩

/-- The bytes before the first NUL. -/
def cStr (s : Bytes) : Bytes := s.takeWhile (· ≠ 0)

theorem c_str_no_nul (m : Bytes) : ∀ b ∈ cStr m, b ≠ 0 := by
  intro b hb
  simpa using List.mem_takeWhile_imp hb

theorem c_str_self {m : Bytes} (h : ∀ b ∈ m, b ≠ 0) : cStr m = m :=
  List.takeWhile_eq_self_iff.mpr (by simpa using h)

theorem c_str_length (m : Bytes) : (cStr m).length ≤ m.length :=
  (List.takeWhile_sublist _).length_le

def ascii (s : String) : Bytes := s.toList.map (fun c => UInt8.ofNat c.toNat)

inductive EventId where
  | getMobileCodeReq
  | getMobileCodeRsp
  | loginReq
  | loginRsp
  | rechargeReq
  | rechargeRsp
  | accountBalanceReq
  | accountBalanceRsp
  | listAccountRecordsReq
  | listAccountRecordsRsp
  | listTravelsReq
  | listTravelsRsp
  | exitRsp
  | unknown
  deriving DecidableEq, Repr

def EventId.code : EventId → ℕ
  | .getMobileCodeReq => 0x01
  | .getMobileCodeRsp => 0x02
  | .loginReq => 0x03
  | .loginRsp => 0x04
  | .rechargeReq => 0x05
  | .rechargeRsp => 0x06
  | .accountBalanceReq => 0x07
  | .accountBalanceRsp => 0x08
  | .listAccountRecordsReq => 0x09
  | .listAccountRecordsRsp => 0x10
  | .listTravelsReq => 0x11
  | .listTravelsRsp => 0x12
  | .exitRsp => 0xFE
  | .unknown => 0xFF

/-- Every identifier survives the 16-bit field of the frame header. -/
theorem event_code_fits (e : EventId) : e.code < 256^2 := by
  cases e <;> decide

inductive EErrorCode where
  | success
  | invalidMsg
  | invalidData
  | methodNotAllowed
  | processFailed
  | bikeIsTaken
  | bikeIsRunning
  | bikeIsDamaged
  | null
  deriving DecidableEq, Repr

def EErrorCode.code : EErrorCode → Int32
  | .success => 200
  | .invalidMsg => 400
  | .invalidData => 404
  | .methodNotAllowed => 405
  | .processFailed => 406
  | .bikeIsTaken => 407
  | .bikeIsRunning => 408
  | .bikeIsDamaged => 409
  | .null => 0

theorem error_code_injective : Function.Injective EErrorCode.code := by
  intro a b h
  cases a <;> cases b <;> first | rfl | exact absurd h (by decide)

def eer : List (EErrorCode × String) :=
  [(.success, "T_OK."), (.invalidMsg, "Invalid message."), (.invalidData, "Invalid data."),
    (.methodNotAllowed, "Method not allowed."), (.processFailed, "Process failed."),
    (.bikeIsTaken, "Bike is taken."), (.bikeIsRunning, "Bike is running."),
    (.bikeIsDamaged, "Bike is damaged."), (.null, "Undefined.")]

def reasonFrom (code : Int32) : List (EErrorCode × String) → String
  | [] => ""
  | (e, reason)::rest =>
    if e.code = EErrorCode.null.code ∨ e.code = code then reason else reasonFrom code rest

def getReasonByErrorCode (code : Int32) : Bytes := ascii (reasonFrom code eer)

theorem reason_from_mem (code : Int32) (table : List (EErrorCode × String)) :
    reasonFrom code table = "" ∨ reasonFrom code table ∈ table.map Prod.snd := by
  induction table with
  | nil => exact Or.inl rfl
  | cons row rest ih =>
    obtain ⟨e,reason⟩ := row
    rw [reasonFrom]
    split
    · exact Or.inr (by simp)
    · rcases ih with h | h
      · exact Or.inl h
      · exact Or.inr (by simp [h])

/-- The row of the null code answers for every code that no row before it has. -/
theorem reason_found (code : Int32) {table : List (EErrorCode × String)} {reason : String}
    (h : (EErrorCode.null, reason) ∈ table) : reasonFrom code table ∈ table.map Prod.snd := by
  induction table with
  | nil => simp at h
  | cons row rest ih =>
    obtain ⟨e,text⟩ := row
    rw [reasonFrom]
    split
    · simp
    · rename_i hrow
      rcases List.mem_cons.mp h with hx | hx
      · exact absurd (Or.inl (by rw [(Prod.mk.inj hx).1])) hrow
      · exact List.mem_cons_of_mem _ (ih hx)

/-- The longest reason of the table bounds the text of every code. -/
theorem reason_length (code : Int32) : (getReasonByErrorCode code).length ≤ 19 := by
  have hall : ∀ s ∈ eer.map Prod.snd, (ascii s).length ≤ 19 := by decide
  rcases reason_from_mem code eer with h | h
  · rw [getReasonByErrorCode, h]; decide
  · exact hall _ h

end SharedBike.Globals

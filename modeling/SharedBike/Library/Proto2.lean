import SharedBike.Library.LittleEndian
import Mathlib.Data.List.Basic
import Mathlib.Tactic.Ring

/-!
# Wire records of protocol buffers, version 2

Varints, keys and the four length-delimited or fixed wire types. A message
is a list of fields; unknown fields are kept by the reader, and the last
occurrence of a field is the one that counts. Groups are not read.
-/

set_option autoImplicit false

namespace Proto2
open LittleEndian (Bytes)

/-- Base-128 groups, low group first, with at most `k+1` of them. -/
def groups : ℕ → ℕ → Bytes
  | 0, n => [UInt8.ofNat n]
  | k+1, n => if n < 128 then [UInt8.ofNat n] else UInt8.ofNat (n%128+128) :: groups k (n/128)

def varint (n : ℕ) : Bytes := groups 9 n

def readGroups : ℕ → Bytes → Option (ℕ × Bytes)
  | 0, _ => none
  | _, [] => none
  | k+1, b::bs =>
    if b.toNat < 128 then some (b.toNat, bs)
    else match readGroups k bs with
      | some (n, rest) => some (b.toNat-128+128*n, rest)
      | none => none

def readVarint (b : Bytes) : Option (ℕ × Bytes) := readGroups 10 b

theorem read_groups (k n : ℕ) (rest : Bytes) (h : n < 128^(k+1)) :
    readGroups (k+1) (groups k n++rest) = some (n, rest) := by
  induction k generalizing n with
  | zero =>
    have hb : (UInt8.ofNat n).toNat = n := by rw [UInt8.toNat_ofNat']; omega
    have hn : n < 128 := by simpa using h
    simp [groups, readGroups, hb, hn]
  | succ k ih =>
    rw [groups]
    split
    · rename_i hn
      have hb : (UInt8.ofNat n).toNat = n := by rw [UInt8.toNat_ofNat']; omega
      simp [readGroups, hb, hn]
    · have hb : (UInt8.ofNat (n%128+128)).toNat = n%128+128 := by
        rw [UInt8.toNat_ofNat']; omega
      have hq : n/128 < 128^(k+1) := by
        rw [pow_succ] at h
        exact (Nat.div_lt_iff_lt_mul (by decide)).mpr h
      rw [List.cons_append, readGroups, hb, if_neg (by omega), ih _ hq]
      simp only [Option.some.injEq, Prod.mk.injEq, and_true]
      omega

theorem groups_length (k n : ℕ) : 1 ≤ (groups k n).length ∧ (groups k n).length ≤ k+1 := by
  induction k generalizing n with
  | zero => simp [groups]
  | succ k ih =>
    have := ih (n/128)
    rw [groups]
    split <;> simp
    omega

theorem read_varint {n : ℕ} (h : n < 2^64) (rest : Bytes) :
    readVarint (varint n++rest) = some (n, rest) :=
  read_groups 9 n rest (by omega)

theorem varint_length (n : ℕ) : 1 ≤ (varint n).length ∧ (varint n).length ≤ 10 :=
  groups_length 9 n

theorem varint_small {n : ℕ} (h : n < 128) : (varint n).length = 1 := by
  simp [varint, groups, h]

inductive Value where
  | number (n : ℕ)
  | fixed64 (b : Bytes)
  | bytes (b : Bytes)
  | fixed32 (b : Bytes)
  deriving DecidableEq, Repr

structure Field where
  key : ℕ
  value : Value
  deriving DecidableEq, Repr

def Field.encode (f : Field) : Bytes :=
  match f.value with
  | .number n => varint (f.key*8)++varint n
  | .fixed64 b => varint (f.key*8+1)++b
  | .bytes b => varint (f.key*8+2)++(varint b.length++b)
  | .fixed32 b => varint (f.key*8+5)++b

def encode (fs : List Field) : Bytes := fs.flatMap Field.encode

def readFixed (k : ℕ) (width : ℕ) (mk : Bytes → Value) (b : Bytes) : Option (Field × Bytes) :=
  if b.length < width then none else some (⟨k, mk (b.take width)⟩, b.drop width)

def readField (b : Bytes) : Option (Field × Bytes) :=
  match readVarint b with
  | none => none
  | some (key, rest) =>
    if key/8 = 0 then none
    else match key%8 with
      | 0 => (readVarint rest).map (fun p => (⟨key/8, .number (p.1%2^64)⟩, p.2))
      | 1 => readFixed (key/8) 8 .fixed64 rest
      | 2 => (readVarint rest).bind (fun p => readFixed (key/8) p.1 .bytes p.2)
      | 5 => readFixed (key/8) 4 .fixed32 rest
      | _ => none

/-- One field consumes at least one byte, so the length is enough fuel. -/
def readFields : ℕ → Bytes → Option (List Field)
  | _, [] => some []
  | 0, _::_ => none
  | k+1, b::bs => match readField (b::bs) with
    | none => none
    | some (f, rest) => (readFields k rest).map (fun fs => f::fs)

def parse (b : Bytes) : Option (List Field) := readFields b.length b

structure Field.Valid (f : Field) : Prop where
  key_pos : 1 ≤ f.key
  key_lt : f.key < 2^29
  value_fits : match f.value with
    | .number n => n < 2^64
    | .fixed64 b => b.length = 8
    | .bytes b => b.length < 2^64
    | .fixed32 b => b.length = 4

theorem read_field {f : Field} (hf : f.Valid) (rest : Bytes) :
    readField (f.encode++rest) = some (f, rest) := by
  have hk := hf.key_pos
  have hlt := hf.key_lt
  have hv := hf.value_fits
  obtain ⟨k,v⟩ := f
  simp only at hk hlt hv
  have hdiv : ∀ w < 8, (k*8+w)/8 = k ∧ (k*8+w)%8 = w := fun w hw => by omega
  have hk0 : k ≠ 0 := by omega
  cases v with
  | number n =>
    have hn : n < 2^64 := hv
    have h0 := hdiv 0 (by decide)
    rw [Nat.add_zero] at h0
    simp only [Field.encode, List.append_assoc, readField,
      read_varint (show k*8 < 2^64 by omega), h0, hk0, if_false, read_varint hn]
    rw [Option.map_some, Nat.mod_eq_of_lt hn]
  | fixed64 b =>
    simp only [Field.encode, List.append_assoc, readField,
      read_varint (show k*8+1 < 2^64 by omega), hdiv 1 (by decide), hk0, if_false, readFixed]
    rw [if_neg (by simp; omega), List.take_left' hv, List.drop_left' hv]
  | bytes b =>
    have hb : b.length < 2^64 := hv
    simp only [Field.encode, List.append_assoc, readField,
      read_varint (show k*8+2 < 2^64 by omega), hdiv 2 (by decide), hk0, if_false,
      read_varint hb, Option.bind_some, readFixed]
    rw [if_neg (by simp), List.take_left' rfl, List.drop_left' rfl]
  | fixed32 b =>
    simp only [Field.encode, List.append_assoc, readField,
      read_varint (show k*8+5 < 2^64 by omega), hdiv 5 (by decide), hk0, if_false, readFixed]
    rw [if_neg (by simp; omega), List.take_left' hv, List.drop_left' hv]

theorem encode_pos (f : Field) : 1 ≤ f.encode.length := by
  obtain ⟨k,v⟩ := f
  cases v <;> simp only [Field.encode, List.length_append]
  · have := varint_length (k*8); omega
  · have := varint_length (k*8+1); omega
  · have := varint_length (k*8+2); omega
  · have := varint_length (k*8+5); omega

theorem read_fields (fs : List Field) (hfs : ∀ f ∈ fs, f.Valid) (n : ℕ)
    (hn : (encode fs).length ≤ n) : readFields n (encode fs) = some fs := by
  induction fs generalizing n with
  | nil => cases n <;> rfl
  | cons f fs ih =>
    have hp := encode_pos f
    have he : encode (f::fs) = f.encode++encode fs := rfl
    rw [he, List.length_append] at hn
    cases n with
    | zero => omega
    | succ n =>
      obtain ⟨b,bs,hb⟩ : ∃ b bs, f.encode++encode fs = b::bs :=
        List.exists_cons_of_ne_nil (List.append_ne_nil_of_left_ne_nil
          (List.ne_nil_of_length_pos hp) _)
      rw [he, hb, readFields, ← hb, read_field (hfs f (by simp))]
      simp [ih (fun g hg => hfs g (by simp [hg])) n (by omega)]

/-- Reading back a message gives the fields written, in order. -/
theorem parse_encode (fs : List Field) (hfs : ∀ f ∈ fs, f.Valid) :
    parse (encode fs) = some fs :=
  read_fields fs hfs _ (le_refl _)

/-- The last number field with this key. -/
def numberOf (k : ℕ) (fs : List Field) : Option ℕ :=
  fs.foldl (fun r f => match f.value with
    | .number n => if f.key = k then some n else r
    | _ => r) none

/-- The last length-delimited field with this key. -/
def bytesOf (k : ℕ) (fs : List Field) : Option Bytes :=
  fs.foldl (fun r f => match f.value with
    | .bytes b => if f.key = k then some b else r
    | _ => r) none

/-- A negative 32-bit number is written as its 64-bit extension. -/
def ofInt32 (x : Int32) : ℕ := (x.toInt%2^64).toNat

def toInt32 (n : ℕ) : Int32 := Int32.ofNat n

theorem ofInt32_lt (x : Int32) : ofInt32 x < 2^64 := by
  unfold ofInt32
  omega

theorem toInt32_ofInt32 (x : Int32) : toInt32 (ofInt32 x) = x := by
  have h1 := x.toInt_lt
  have h2 := x.le_toInt
  apply Int32.toInt_inj.mp
  have hs : Int32.size = 2^32 := rfl
  rw [toInt32, ofInt32, Int32.toInt_ofNat', hs, Int.bmod_def]
  omega

end Proto2

import SharedBike.Library.Proto2

/-!
# Messages cut short and filled up with zeros

A zero byte is a key that no field has, so the reader of a message that was cut
and filled up with zeros stops at the first zero that it takes for a key. If no
zero is left to be taken for one, the cut lies in the last field.
-/

set_option autoImplicit false

namespace Proto2
open LittleEndian (Bytes)

theorem read_groups_shorter {k n : ℕ} {b rest : Bytes} (h : readGroups k b = some (n, rest)) :
    rest.length < b.length := by
  induction k generalizing b n with
  | zero => simp [readGroups] at h
  | succ k ih =>
    cases b with
    | nil => simp [readGroups] at h
    | cons c b =>
      rw [readGroups] at h
      split at h
      · obtain ⟨-,rfl⟩ := Prod.mk.inj (Option.some.inj h)
        simp
      · split at h
        · rename_i hr
          obtain ⟨-,rfl⟩ := Prod.mk.inj (Option.some.inj h)
          have := ih hr
          rw [List.length_cons]
          omega
        · simp at h

theorem read_fixed_shorter {k width : ℕ} {mk : Bytes → Value} {b rest : Bytes} {f : Field}
    (h : readFixed k width mk b = some (f, rest)) : rest.length ≤ b.length := by
  rw [readFixed] at h
  split at h
  · simp at h
  · obtain ⟨-,rfl⟩ := Prod.mk.inj (Option.some.inj h)
    simp

theorem read_field_shorter {b rest : Bytes} {f : Field} (h : readField b = some (f, rest)) :
    rest.length < b.length := by
  unfold readField at h
  split at h
  · simp at h
  · rename_i key after hkey
    have hlt := read_groups_shorter hkey
    split at h
    · simp at h
    · split at h
      · obtain ⟨⟨n,r⟩,hr,hx⟩ := Option.map_eq_some_iff.mp h
        obtain ⟨-,rfl⟩ := Prod.mk.inj hx
        have : r.length < after.length := read_groups_shorter hr
        show r.length < b.length
        omega
      · have := read_fixed_shorter h
        omega
      · obtain ⟨⟨n,r⟩,hr,hx⟩ := Option.bind_eq_some_iff.mp h
        have h1 : r.length < after.length := read_groups_shorter hr
        have h2 : rest.length ≤ r.length := read_fixed_shorter hx
        omega
      · have := read_fixed_shorter h
        omega
      · simp at h

/-- Fuel for one field each byte is enough, and more changes nothing. -/
theorem read_fields_fuel {n m : ℕ} {b : Bytes} (hn : b.length ≤ n) (hm : b.length ≤ m) :
    readFields n b = readFields m b := by
  induction n generalizing m b with
  | zero =>
    obtain rfl := List.eq_nil_of_length_eq_zero (Nat.le_zero.mp hn)
    cases m <;> rfl
  | succ n ih =>
    cases b with
    | nil => cases m <;> rfl
    | cons c b =>
      cases m with
      | zero => simp at hm
      | succ m =>
        rw [readFields, readFields]
        split
        · rfl
        · rename_i f rest hr
          have := read_field_shorter hr
          rw [List.length_cons] at *
          rw [@ih m rest (by omega) (by omega)]

theorem parse_step {b : Bytes} (hb : b ≠ []) :
    parse b = (readField b).bind fun p => (parse p.2).map fun fs => p.1::fs := by
  cases b with
  | nil => exact absurd rfl hb
  | cons c b =>
    rw [parse, List.length_cons, readFields]
    cases hr : readField (c::b) with
    | none => rfl
    | some p =>
      have := read_field_shorter (show readField (c::b) = some (p.1, p.2) from hr)
      rw [List.length_cons] at this
      rw [Option.bind_some, parse, @read_fields_fuel p.2.length b.length p.2 le_rfl (by omega)]

/-- Reading `b` field by field gives `fs` and leaves `rest`. -/
inductive Reads : Bytes → List Field → Bytes → Prop
  | stop (b : Bytes) : Reads b [] b
  | field {b after rest : Bytes} {f : Field} {fs : List Field}
      (front : readField b = some (f, after)) (later : Reads after fs rest) :
      Reads b (f::fs) rest

theorem parse_reads {b rest : Bytes} {fs : List Field} (h : Reads b fs rest) :
    parse b = (parse rest).map fun gs => fs++gs := by
  induction h with
  | stop b => simp
  | @field b after rest f fs front later ih =>
    have hne : b ≠ [] := by
      rintro rfl
      simp [readField, readVarint, readGroups] at front
    rw [parse_step hne, front, Option.bind_some, ih, Option.map_map]
    rfl

/-- A reader has come to the end, or to a zero where a key should be. -/
def Stopped (rest : Bytes) : Prop := rest = [] ∨ ∃ after, rest = 0::after

/-- No field has the key zero. -/
theorem parse_zero (rest : Bytes) : parse (0::rest) = none := by
  rw [parse_step (by simp)]
  rfl

theorem parse_stopped {b rest : Bytes} {fs : List Field} (h : Reads b fs rest) :
    (rest = [] → parse b = some fs) ∧ (∀ after, rest = 0::after → parse b = none) := by
  constructor
  · rintro rfl
    simpa [parse, readFields] using parse_reads h
  · rintro after rfl
    rw [parse_reads h, parse_zero]
    rfl

/-- A number cut short ends at the zero after the cut. -/
theorem read_cut_groups {k n i : ℕ} (hi : i < (groups k n).length) (rest : Bytes) :
    ∃ v, readGroups (k+1) ((groups k n).take i++0::rest) = some (v, rest) := by
  induction k generalizing n i with
  | zero =>
    obtain rfl : i = 0 := by simpa [groups] using hi
    exact ⟨0,rfl⟩
  | succ k ih =>
    cases i with
    | zero => exact ⟨0,rfl⟩
    | succ i =>
      rw [groups] at hi ⊢
      split at hi
      · simp at hi
      · rename_i hn
        have hb : (UInt8.ofNat (n%128+128)).toNat = n%128+128 := by
          rw [UInt8.toNat_ofNat']; omega
        obtain ⟨v,hv⟩ := @ih (n/128) i (by simpa using hi)
        refine ⟨n%128+128-128+128*v,?_⟩
        rw [if_neg hn, List.take_succ_cons, List.cons_append, readGroups, hb,
          if_neg (by omega), hv]

theorem varint_one {n : ℕ} (h : n < 128) : varint n = [UInt8.ofNat n] := by
  rw [varint, groups, if_pos h]

/-- The first `j` bytes, and zeros in place of the others. -/
def padded (b : Bytes) (j : ℕ) : Bytes := b.take j++List.replicate (b.length-j) 0

theorem padded_append (a b : Bytes) (j : ℕ) : padded (a++b) (a.length+j) = a++padded b j := by
  have hl : (a++b).length-(a.length+j) = b.length-j := by rw [List.length_append]; omega
  rw [padded, hl, List.take_length_add_append, List.append_assoc]
  rfl

/-- The number fields and the last field of a message; every key is one byte. -/
structure Plain (nums : List Field) (k : ℕ) (b : Bytes) : Prop where
  numbers : ∀ f ∈ nums, f.Valid ∧ f.key < 16 ∧ ∃ n, f.value = .number n
  key : 1 ≤ k ∧ k < 16
  short : b.length < 128
  some_text : b ≠ []
  no_zero : 0 ∉ b

/-- A number field that is cut leaves a zero where the next key is. -/
theorem reads_cut_number {k n j : ℕ} (hk : 1 ≤ k ∧ k < 16)
    (hj : j < (Field.encode ⟨k, .number n⟩).length) (rest : Bytes) :
    ∃ fs after, Reads ((Field.encode ⟨k, .number n⟩).take j++0::0::rest) fs (0::after) ∧
      ∀ key, bytesOf key fs = none := by
  have hkey : varint (k*8) = [UInt8.ofNat (k*8)] := varint_one (by omega)
  have hform : Field.encode ⟨k, .number n⟩ = UInt8.ofNat (k*8)::varint n := by
    simp only [Field.encode, hkey, List.cons_append, List.nil_append]
  rw [hform] at hj ⊢
  cases j with
  | zero => exact ⟨[],_,.stop _,fun _ => rfl⟩
  | succ j =>
    rw [List.length_cons] at hj
    obtain ⟨v,hv⟩ := read_cut_groups (show j < (groups 9 n).length by rw [← varint]; omega)
      (0::rest)
    have hfield : readField (UInt8.ofNat (k*8)::((varint n).take j++0::0::rest)) =
        some (⟨k, .number (v%2^64)⟩, 0::rest) := by
      have hread := read_varint (show k*8 < 2^64 by omega) ((varint n).take j++0::0::rest)
      rw [hkey, List.singleton_append] at hread
      have hdiv : k*8/8 = k := by omega
      have hmod : k*8%8 = 0 := by omega
      simp only [readField, hread, hdiv, hmod, if_neg (show k ≠ 0 by omega)]
      rw [readVarint, varint, hv]
      rfl
    exact ⟨_,_,.field hfield (.stop _),fun _ => rfl⟩

/-- A text field that is cut loses its text. -/
theorem reads_cut_bytes {k j : ℕ} {b : Bytes} (hk : 1 ≤ k ∧ k < 16) (hshort : b.length < 128)
    (hne : b ≠ []) (hzero : 0 ∉ b) (hj : j < (Field.encode ⟨k, .bytes b⟩).length) :
    ∃ fs rest, Reads (padded (Field.encode ⟨k, .bytes b⟩) j) fs rest ∧ Stopped rest ∧
      bytesOf k fs ≠ some b := by
  have hkey : varint (k*8+2) = [UInt8.ofNat (k*8+2)] := varint_one (by omega)
  have hlen : varint b.length = [UInt8.ofNat b.length] := varint_one hshort
  have hpos := List.length_pos_of_ne_nil hne
  have hform : Field.encode ⟨k, .bytes b⟩ =
      UInt8.ofNat (k*8+2)::UInt8.ofNat b.length::b := by
    simp only [Field.encode, hkey, hlen, List.cons_append, List.nil_append]
  have htext : ∀ t : Bytes, t.length < 128 → Field.Valid ⟨k, .bytes t⟩ := fun t ht =>
    ⟨hk.1,show k < 2^29 by omega,show t.length < 2^64 by omega⟩
  rw [hform, List.length_cons, List.length_cons] at hj
  rw [hform]
  rcases j with _ | _ | j
  · exact ⟨[],_,.stop _,Or.inr ⟨_,rfl⟩,by simp [bytesOf]⟩
  · -- the length byte is lost: the field reads as an empty text
    obtain ⟨m,hm⟩ : ∃ m, b.length = m+1 := ⟨b.length-1,by omega⟩
    have hpad : padded (UInt8.ofNat (k*8+2)::UInt8.ofNat b.length::b) 1 =
        Field.encode ⟨k, .bytes []⟩++0::List.replicate m 0 := by
      have hempty : varint ([] : Bytes).length = [0] := rfl
      simp only [Field.encode, hkey, hempty, padded, List.length_cons, hm]
      simp [List.replicate_succ]
    have hread := read_field (htext [] (by simp)) (0::List.replicate m 0)
    rw [← hpad] at hread
    exact ⟨[⟨k, .bytes []⟩],_,.field hread (.stop _),Or.inr ⟨_,rfl⟩,
      by simpa [bytesOf] using hne.symm⟩
  · -- the text keeps its length and ends in a zero
    have hl : (padded b j).length = b.length := by
      rw [padded, List.length_append, List.length_take, List.length_replicate]
      omega
    have hpad : padded (UInt8.ofNat (k*8+2)::UInt8.ofNat b.length::b) (j+2) =
        Field.encode ⟨k, .bytes (padded b j)⟩++[] := by
      simp only [Field.encode, hkey, hl, hlen]
      simp [padded]
    have hread := read_field (htext (padded b j) (by omega)) []
    rw [← hpad] at hread
    refine ⟨[⟨k, .bytes (padded b j)⟩],[],.field hread (.stop _),Or.inl rfl,fun hx => hzero ?_⟩
    have hb : padded b j = b := by simpa [bytesOf] using hx
    rw [← hb, padded]
    exact List.mem_append_right _ (List.mem_replicate.mpr ⟨by omega,rfl⟩)

theorem bytes_number (key : ℕ) {f : Field} {n : ℕ} (hf : f.value = .number n) (fs : List Field) :
    bytesOf key (f::fs) = bytesOf key fs := by
  simp only [bytesOf, List.foldl_cons, hf]

/-- A message of number fields and one text that is cut anywhere does not read
as a message with that text. -/
theorem reads_cut {nums : List Field} {k j : ℕ} {b : Bytes} (h : Plain nums k b)
    (hj : j < (encode (nums++[⟨k, .bytes b⟩])).length) :
    ∃ fs rest, Reads (padded (encode (nums++[⟨k, .bytes b⟩])) j) fs rest ∧ Stopped rest ∧
      bytesOf k fs ≠ some b := by
  induction nums generalizing j with
  | nil =>
    have hlast : encode [⟨k, .bytes b⟩] = Field.encode ⟨k, .bytes b⟩ := by simp [encode]
    rw [List.nil_append, hlast] at hj ⊢
    exact reads_cut_bytes h.key h.short h.some_text h.no_zero hj
  | cons f nums ih =>
    obtain ⟨hf,hkey,n,hn⟩ := h.numbers f (by simp)
    have hsplit : encode ((f::nums)++[⟨k, .bytes b⟩]) =
        f.encode++encode (nums++[⟨k, .bytes b⟩]) := rfl
    rw [hsplit] at hj ⊢
    by_cases hcut : j < f.encode.length
    · have hlater : 1 ≤ (encode (nums++[⟨k, .bytes b⟩])).length := by
        have := encode_pos ⟨k, .bytes b⟩
        simp only [encode, List.flatMap_append, List.length_append, List.flatMap_singleton]
        omega
      obtain ⟨m,hm⟩ : ∃ m, (f.encode++encode (nums++[⟨k, .bytes b⟩])).length-j = m+2 := by
        rw [List.length_append]
        exact ⟨f.encode.length+(encode (nums++[⟨k, .bytes b⟩])).length-j-2,by omega⟩
      obtain ⟨fk,fv⟩ := f
      obtain rfl : fv = .number n := hn
      rw [padded, hm, List.take_append_of_le_length (by omega), List.replicate_succ,
        List.replicate_succ]
      obtain ⟨fs,after,hread,hnone⟩ := reads_cut_number ⟨hf.key_pos,hkey⟩ hcut
        (List.replicate m 0)
      exact ⟨fs,_,hread,Or.inr ⟨after,rfl⟩,by rw [hnone]; simp⟩
    · obtain ⟨i,rfl⟩ := Nat.exists_eq_add_of_le (Nat.not_lt.mp hcut)
      rw [List.length_append] at hj
      have hnums : Plain nums k b :=
        ⟨fun g hg => h.numbers g (by simp [hg]),h.key,h.short,h.some_text,h.no_zero⟩
      obtain ⟨fs,rest,hread,hstop,hb⟩ := @ih i hnums (by omega)
      rw [padded_append]
      exact ⟨f::fs,rest,.field (read_field hf _) hread,hstop,by rwa [bytes_number k hn]⟩

end Proto2

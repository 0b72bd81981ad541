import SharedBike.Library.LittleEndian
import Mathlib.Tactic.Ring

/-!
# Length-prefixed frames after a magic word

A frame is a magic word, a 16-bit tag, a 32-bit payload length and the
payload. The reader answers for any finite part of a stream: more bytes are
needed, the header is bad, or one frame is complete with a remainder. The
reference decoding of a stream repeats the reader.
-/

set_option autoImplicit false

namespace LengthFrames
open LittleEndian

structure Format where
  magic : Bytes
  limit : ℕ
  limit_fits : limit < 256^4

structure Frame where
  tag : ℕ
  len : ℕ
  payload : Bytes
  deriving DecidableEq, Repr

variable (F : Format)

def headerLen : ℕ := F.magic.length+6

def header (tag len : ℕ) : Bytes := F.magic++write 2 tag++write 4 len

def Frame.bytes (f : Frame) : Bytes := header F f.tag f.len++f.payload

structure Frame.Valid (f : Frame) : Prop where
  tag_fits : f.tag < 256^2
  len_pos : 1 ≤ f.len
  len_le : f.len ≤ F.limit
  payload_length : f.payload.length = f.len

def tagOf (b : Bytes) : ℕ := read ((b.drop F.magic.length).take 2)

def lenOf (b : Bytes) : ℕ := read ((b.drop (F.magic.length+2)).take 4)

def GoodHeader (b : Bytes) : Prop :=
  b.take F.magic.length = F.magic ∧ 1 ≤ lenOf F b ∧ lenOf F b ≤ F.limit

instance (b : Bytes) : Decidable (GoodHeader F b) := by
  unfold GoodHeader; infer_instance

inductive Reading where
  | more
  | bad
  | complete (f : Frame) (rest : Bytes)
  deriving DecidableEq, Repr

def readFrame (b : Bytes) : Reading :=
  if b.length < headerLen F then .more
  else if ¬ GoodHeader F b then .bad
  else if b.length < headerLen F+lenOf F b then .more
  else .complete ⟨tagOf F b, lenOf F b, (b.drop (headerLen F)).take (lenOf F b)⟩
    (b.drop (headerLen F+lenOf F b))

@[simp] theorem header_length (tag len : ℕ) : (header F tag len).length = headerLen F := by
  simp [header, headerLen]

theorem frame_length {f : Frame} (hf : f.Valid F) :
    (f.bytes F).length = headerLen F+f.len := by
  rw [Frame.bytes, List.length_append, header_length, hf.payload_length]

theorem tag_header (tag len : ℕ) (b : Bytes) (ht : tag < 256^2) :
    tagOf F (header F tag len++b) = tag := by
  simp [tagOf, header, List.append_assoc, List.drop_left', List.take_left', read_write_fits ht]

theorem len_header (tag len : ℕ) (b : Bytes) (hl : len < 256^4) :
    lenOf F (header F tag len++b) = len := by
  have h : header F tag len++b = (F.magic++write 2 tag)++(write 4 len++b) := by
    simp [header]
  rw [lenOf, h, List.drop_left' (by simp), List.take_left' (by simp), read_write_fits hl]

/-- Ten bytes that pass the header test are the header they announce. -/
theorem header_of_good {b : Bytes} (hl : b.length = headerLen F) (hg : GoodHeader F b) :
    b = header F (tagOf F b) (lenOf F b) := by
  have hm := hg.1
  have ht : ((b.drop F.magic.length).take 2).length = 2 := by
    simp [headerLen] at hl ⊢; omega
  have hn : ((b.drop (F.magic.length+2)).take 4).length = 4 := by
    simp [headerLen] at hl ⊢; omega
  have h2 := write_read ((b.drop F.magic.length).take 2)
  have h4 := write_read ((b.drop (F.magic.length+2)).take 4)
  rw [ht] at h2
  rw [hn] at h4
  have hend : (b.drop (F.magic.length+2)).take 4 = b.drop (F.magic.length+2) :=
    List.take_of_length_le (by simp [headerLen] at hl ⊢; omega)
  calc
    b = b.take F.magic.length++b.drop F.magic.length := (List.take_append_drop _ b).symm
    _ = b.take F.magic.length++((b.drop F.magic.length).take 2++
          b.drop (F.magic.length+2)) := by
        rw [← List.drop_drop, List.take_append_drop, List.take_append_drop,
          List.take_append_drop]
    _ = header F (tagOf F b) (lenOf F b) := by
        rw [header, tagOf, lenOf, h2, h4, hend, hm, List.append_assoc]

theorem take_good (b : Bytes) :
    (GoodHeader F (b.take (headerLen F)) ↔ GoodHeader F b) ∧
      tagOf F (b.take (headerLen F)) = tagOf F b ∧
      lenOf F (b.take (headerLen F)) = lenOf F b := by
  have hl : lenOf F (b.take (headerLen F)) = lenOf F b := by
    simp [lenOf, headerLen, List.drop_take, List.take_take]
  have ht : tagOf F (b.take (headerLen F)) = tagOf F b := by
    simp [tagOf, headerLen, List.drop_take, List.take_take]
  refine ⟨?_,ht,hl⟩
  simp only [GoodHeader, hl, List.take_take]
  rw [Nat.min_eq_left (by simp [headerLen])]

theorem good_header {tag len : ℕ} (b : Bytes) (h1 : 1 ≤ len) (h2 : len ≤ F.limit) :
    GoodHeader F (header F tag len++b) := by
  have hf := F.limit_fits
  refine ⟨?_,?_,?_⟩
  · simp [header, List.append_assoc]
  · rw [len_header F tag len b (by omega)]; exact h1
  · rw [len_header F tag len b (by omega)]; exact h2

theorem read_short {b : Bytes} (h : b.length < headerLen F) : readFrame F b = .more := if_pos h

/-- The reader on a whole header and what follows it. -/
theorem read_header {head : Bytes} (hl : head.length = headerLen F) (rest : Bytes) :
    readFrame F (head++rest) =
      if ¬ GoodHeader F head then .bad
      else if rest.length < lenOf F head then .more
      else .complete ⟨tagOf F head, lenOf F head, rest.take (lenOf F head)⟩
        (rest.drop (lenOf F head)) := by
  have hlen : (head++rest).length = headerLen F+rest.length := by rw [List.length_append, hl]
  obtain ⟨hgood,htag,hn⟩ := take_good F (head++rest)
  rw [List.take_left' hl] at hgood htag hn
  rw [readFrame, if_neg (by omega), ← hn, ← htag, ← List.drop_drop, List.drop_left' hl]
  by_cases hg : GoodHeader F head
  · rw [if_neg (not_not_intro (hgood.mp hg)), if_neg (not_not_intro hg)]
    by_cases hr : rest.length < lenOf F head
    · rw [if_pos (by omega), if_pos hr]
    · rw [if_neg (by omega), if_neg hr]
  · rw [if_pos (fun hx => hg (hgood.mpr hx)), if_pos hg]

theorem read_complete {f : Frame} (hf : f.Valid F) (rest : Bytes) :
    readFrame F (f.bytes F++rest) = .complete f rest := by
  have hfit := F.limit_fits
  have hle := hf.len_le
  have hpay := hf.payload_length
  have hg := @good_header F f.tag f.len [] hf.len_pos hf.len_le
  have ht := tag_header F f.tag f.len [] hf.tag_fits
  have hn := len_header F f.tag f.len [] (by omega)
  rw [List.append_nil] at hg ht hn
  rw [Frame.bytes, List.append_assoc, read_header F (header_length F _ _),
    if_neg (not_not_intro hg), hn, ht, List.length_append, if_neg (by omega),
    List.take_left' hpay, List.drop_left' hpay]

theorem read_inv {b rest : Bytes} {f : Frame} (h : readFrame F b = .complete f rest) :
    f.Valid F ∧ b = f.bytes F++rest := by
  unfold readFrame at h
  split_ifs at h with h1 h2 h3
  obtain ⟨rfl,rfl⟩ := Reading.complete.inj h
  obtain ⟨hgt,htt,hlt⟩ := take_good F b
  have hh := header_of_good F (b := b.take (headerLen F)) (by simp; omega) (hgt.mpr h2)
  rw [htt,hlt] at hh
  refine ⟨⟨?_,h2.2.1,h2.2.2,by simp; omega⟩,?_⟩
  · have := read_lt ((b.drop F.magic.length).take 2)
    have hl : ((b.drop F.magic.length).take 2).length = 2 := by
      simp [headerLen] at h1 ⊢; omega
    rw [hl] at this
    exact this
  · rw [Frame.bytes, ← hh, List.append_assoc, ← List.drop_drop, List.take_append_drop,
      List.take_append_drop]

/-- A bad header stays bad whatever follows it. -/
theorem read_bad_append {b : Bytes} (h : readFrame F b = .bad) (rest : Bytes) :
    readFrame F (b++rest) = .bad := by
  unfold readFrame at h
  split_ifs at h with h1 h2
  have ht : (b++rest).take (headerLen F) = b.take (headerLen F) :=
    List.take_append_of_le_length (by omega)
  have hg : ¬ GoodHeader F (b++rest) := by
    rw [← (take_good F (b++rest)).1, ht, (take_good F b).1]
    exact h2
  rw [readFrame, if_neg (by rw [List.length_append]; omega), if_pos hg]

/-- A part of one frame's bytes is incomplete, or it is the whole frame. -/
theorem read_part {f : Frame} (hf : f.Valid F) {b rest : Bytes} (h : b++rest = f.bytes F) :
    readFrame F b = .more ∨ (readFrame F b = .complete f [] ∧ rest = []) := by
  have hw := read_complete F hf []
  rw [List.append_nil, ← h] at hw
  cases hb : readFrame F b with
  | more => exact Or.inl rfl
  | bad => rw [read_bad_append F hb rest] at hw; simp at hw
  | complete g r =>
    obtain ⟨hg,rfl⟩ := read_inv F hb
    rw [List.append_assoc, read_complete F hg] at hw
    obtain ⟨rfl,hr⟩ := Reading.complete.inj hw
    obtain ⟨rfl,rfl⟩ := List.append_eq_nil_iff.mp hr
    exact Or.inr ⟨rfl,rfl⟩

/-- The reference decoding: complete frames from the start of the stream, up
to the first bad header or to the first incomplete frame. -/
def decodeAll (b : Bytes) : List Frame :=
  match _h : readFrame F b with
  | .complete f rest => f::decodeAll rest
  | _ => []
termination_by b.length
decreasing_by
  obtain ⟨hv,rfl⟩ := read_inv F _h
  have := hv.len_pos
  rw [List.length_append, frame_length F hv]
  omega

theorem decode_cons {f : Frame} (hf : f.Valid F) (rest : Bytes) :
    decodeAll F (f.bytes F++rest) = f::decodeAll F rest := by
  rw [decodeAll]
  split
  · rename_i g r h
    rw [read_complete F hf] at h
    obtain ⟨rfl,rfl⟩ := Reading.complete.inj h
    rfl
  · rename_i h
    exact absurd (read_complete F hf rest) (h f rest)

theorem decode_append (fs : List Frame) (hfs : ∀ f ∈ fs, f.Valid F) (rest : Bytes) :
    decodeAll F (fs.flatMap (Frame.bytes F)++rest) = fs++decodeAll F rest := by
  induction fs with
  | nil => rfl
  | cons f fs ih =>
    rw [List.flatMap_cons, List.append_assoc, decode_cons F (hfs f (by simp)),
      ih (fun g hg => hfs g (by simp [hg])), List.cons_append]

end LengthFrames

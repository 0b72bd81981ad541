import SharedBike.Library.LittleEndian
import Mathlib.Data.List.TakeWhile

/-!
# Tokens of SQL text

Five classes of text: whitespace, words, decimal numbers, quoted strings and
single punctuation bytes. The reader is an automaton that moves one byte at a
time, so that a text is read as its parts are read one after the other.
Comment markers are read as punctuation, and a number with an exponent as a
word, since its value is only approximate.
-/

set_option autoImplicit false

namespace SqlTokens
open LittleEndian (Bytes)

inductive Token where
  | word (text : Bytes)
  | number (text : Bytes)
  | string (content : Bytes)
  | punct (b : UInt8)
  deriving DecidableEq, Repr

def isSpace (b : UInt8) : Bool := b.toNat = 32 || (9 ≤ b.toNat && b.toNat ≤ 13)

def isQuote (b : UInt8) : Bool := b.toNat = 39 || b.toNat = 34

def isDigit (b : UInt8) : Bool := 48 ≤ b.toNat && b.toNat ≤ 57

/-- Letters, digits, `_`, `$`, the dot and all bytes above ASCII. -/
def isName (b : UInt8) : Bool :=
  isDigit b || (65 ≤ b.toNat && b.toNat ≤ 90) || (97 ≤ b.toNat && b.toNat ≤ 122) ||
    b.toNat = 95 || b.toNat = 36 || b.toNat = 46 || 128 ≤ b.toNat

/-- Digits with at most one dot, and at least one digit. -/
def isNumeral (t : Bytes) : Bool :=
  match t.dropWhile isDigit with
  | [] => !t.isEmpty
  | b::rest => b == 46 && rest.all isDigit && 1 < t.length

def classify (run : Bytes) : Token := if isNumeral run then .number run else .word run

/-- The byte that an escape sequence stands for; `\%` and `\_` stay as they are. -/
def unescape (b : UInt8) : Bytes :=
  if b = 48 then [0] else if b = 98 then [8] else if b = 110 then [10] else if b = 114 then [13]
  else if b = 116 then [9] else if b = 90 then [26] else if b = 37 ∨ b = 95 then [92, b] else [b]

inductive Mode where
  | ready
  | run (text : Bytes)
  | quoted (q : UInt8) (content : Bytes)
  | escaped (q : UInt8) (content : Bytes)
  | closing (q : UInt8) (content : Bytes)
  deriving DecidableEq, Repr

/-- The first byte of something new. -/
def open_ (b : UInt8) : List Token × Mode :=
  if isSpace b then ([], .ready)
  else if isQuote b then ([], .quoted b [])
  else if isName b then ([], .run [b])
  else ([.punct b], .ready)

def move : Mode → UInt8 → List Token × Mode
  | .ready, b => open_ b
  | .run text, b => if isName b then ([], .run (text++[b]))
    else (classify text::(open_ b).1, (open_ b).2)
  | .quoted q content, b => if b = q then ([], .closing q content)
    else if b = 92 then ([], .escaped q content)
    else ([], .quoted q (content++[b]))
  | .escaped q content, b => ([], .quoted q (content++unescape b))
  | .closing q content, b => if b = q then ([], .quoted q (content++[q]))
    else (.string content::(open_ b).1, (open_ b).2)

def scan (m : Mode) : Bytes → List Token × Mode
  | [] => ([], m)
  | b::bs => ((move m b).1++(scan (move m b).2 bs).1, (scan (move m b).2 bs).2)

/-- A text that ends inside quotes has no tokens. -/
def finish : Mode → Option (List Token)
  | .ready => some []
  | .run text => some [classify text]
  | .quoted _ _ => none
  | .escaped _ _ => none
  | .closing _ content => some [.string content]

def tokens (b : Bytes) : Option (List Token) :=
  (finish (scan .ready b).2).map fun ts => (scan .ready b).1++ts

def intPart (t : Bytes) : Bytes := t.takeWhile isDigit

def fracPart (t : Bytes) : Bytes := (t.dropWhile isDigit).drop 1

/-- The decimal text of a numeral's value: no leading zeros, a digit before the
point, and the fraction as written. -/
def canonical (t : Bytes) : Bytes :=
  (match (intPart t).dropWhile (· = 48) with
    | [] => [48]
    | d::ds => d::ds)++
  (if fracPart t = [] then [] else 46::fracPart t)

/-- The text that a literal stands for; only literals have one. -/
def Token.denotes : Token → Option Bytes
  | .number text => some (canonical text)
  | .string content => some content
  | _ => none

theorem scan_append (m : Mode) (xs ys : Bytes) :
    scan m (xs++ys) = ((scan m xs).1++(scan (scan m xs).2 ys).1, (scan (scan m xs).2 ys).2) := by
  induction xs generalizing m with
  | nil => simp [scan]
  | cons x xs ih => simp [scan, ih]

/-- A first part that ends between two tokens may be read on its own. -/
theorem tokens_append {xs : Bytes} {ts : List Token} (h : scan .ready xs = (ts, .ready))
    (ys : Bytes) : tokens (xs++ys) = (tokens ys).map (ts++·) := by
  simp only [tokens, scan_append, h, Option.map_map]
  congr 1
  funext us
  simp

theorem not_space_of_name {b : UInt8} (h : isName b = true) :
    isSpace b = false ∧ isQuote b = false := by
  simp only [isName, isDigit, Bool.or_eq_true, Bool.and_eq_true, decide_eq_true_eq] at h
  simp only [isSpace, isQuote, Bool.or_eq_false_iff, Bool.and_eq_false_iff,
    decide_eq_false_iff_not]
  omega

/-- A run of name bytes stays one token as it is read. -/
theorem scan_run (text xs : Bytes) (h : ∀ b ∈ xs, isName b = true) :
    scan (.run text) xs = ([], .run (text++xs)) := by
  induction xs generalizing text with
  | nil => simp [scan]
  | cons x xs ih =>
    have hx := h x (by simp)
    rw [scan, move, if_pos hx, ih _ (fun b hb => h b (by simp [hb]))]
    simp

theorem scan_name {xs : Bytes} (hne : xs ≠ []) (h : ∀ b ∈ xs, isName b = true) :
    scan .ready xs = ([], .run xs) := by
  cases xs with
  | nil => exact absurd rfl hne
  | cons x xs =>
    have hx := h x (by simp)
    obtain ⟨hs,hq⟩ := not_space_of_name hx
    rw [scan, move, open_, if_neg (by simp [hs]), if_neg (by simp [hq]), if_pos hx,
      scan_run _ _ (fun b hb => h b (by simp [hb]))]
    rfl

theorem tokens_name {xs : Bytes} (hne : xs ≠ []) (h : ∀ b ∈ xs, isName b = true) :
    tokens xs = some [classify xs] := by
  rw [tokens, scan_name hne h]
  rfl

/-- A run is closed by a punctuation byte behind it. -/
theorem tokens_name_punct {xs : Bytes} (hne : xs ≠ []) (h : ∀ b ∈ xs, isName b = true)
    {b : UInt8} (hb : open_ b = ([.punct b], .ready)) (hn : isName b = false) :
    tokens (xs++[b]) = some [classify xs, .punct b] := by
  have hs : scan .ready (xs++[b]) = ([classify xs, .punct b], .ready) := by
    rw [scan_append, scan_name hne h]
    simp [scan, move, hn, hb]
  rw [tokens, hs]
  rfl

/-- The bytes of text that a token takes, at least. -/
def Token.weight : Token → ℕ
  | .word text => text.length
  | .number text => text.length
  | .string content => content.length+2
  | .punct _ => 1

def Mode.weight : Mode → ℕ
  | .ready => 0
  | .run text => text.length
  | .quoted _ content => content.length+1
  | .escaped _ content => content.length+2
  | .closing _ content => content.length+2

def weights (ts : List Token) : ℕ := (ts.map Token.weight).sum

theorem classify_weight (t : Bytes) : (classify t).weight = t.length := by
  unfold classify
  split <;> rfl

theorem unescape_length (b : UInt8) : (unescape b).length ≤ 2 := by
  unfold unescape
  split_ifs <;> simp

theorem open_weight (b : UInt8) : weights (open_ b).1+(open_ b).2.weight ≤ 1 := by
  unfold open_
  split_ifs <;> simp [weights, Mode.weight, Token.weight]

theorem move_weight (m : Mode) (b : UInt8) :
    weights (move m b).1+(move m b).2.weight ≤ m.weight+1 := by
  have ho := open_weight b
  cases m with
  | ready => simpa [move, Mode.weight] using ho
  | run text =>
    rw [move]
    split
    · simp [weights, Mode.weight]
    · simp only [weights, List.map_cons, List.sum_cons, classify_weight, Mode.weight] at *
      omega
  | quoted q content =>
    rw [move]
    split_ifs <;> simp [weights, Mode.weight]
  | escaped q content =>
    have := unescape_length b
    simp only [move, weights, Mode.weight, List.map_nil, List.sum_nil, List.length_append]
    omega
  | closing q content =>
    rw [move]
    split
    · simp [weights, Mode.weight]
    · simp only [weights, List.map_cons, List.sum_cons, Token.weight, Mode.weight] at *
      omega

theorem scan_weight (m : Mode) (xs : Bytes) :
    weights (scan m xs).1+(scan m xs).2.weight ≤ m.weight+xs.length := by
  induction xs generalizing m with
  | nil => simp [scan, weights]
  | cons x xs ih =>
    have h1 := move_weight m x
    have h2 := ih (move m x).2
    simp only [scan, weights, List.map_append, List.sum_append, List.length_cons] at *
    omega

/-- The tokens of a text weigh at most as much as the text is long. -/
theorem tokens_weight {xs : Bytes} {ts : List Token} (h : tokens xs = some ts) :
    weights ts ≤ xs.length := by
  have hs := scan_weight .ready xs
  obtain ⟨us,hf,rfl⟩ := Option.map_eq_some_iff.mp h
  have hw : weights us = (scan .ready xs).2.weight := by
    cases hm : (scan .ready xs).2 <;> rw [hm] at hf <;> simp [finish] at hf <;> subst hf
    · rfl
    · simp [weights, Mode.weight, classify_weight]
    · simp [weights, Mode.weight, Token.weight]
  simp only [weights, List.map_append, List.sum_append] at *
  rw [hw]
  simpa [Mode.weight] using hs

theorem digit_name {b : UInt8} (h : isDigit b = true) : isName b = true := by
  simp [isName, h]

theorem numeral_frac {t : Bytes} (h : isNumeral t = true) : ∀ b ∈ fracPart t, isDigit b = true := by
  unfold isNumeral at h
  unfold fracPart
  split at h
  · rename_i hd
    rw [hd]
    simp
  · rename_i b rest hd
    rw [hd]
    simp only [Bool.and_eq_true, List.all_eq_true] at h
    exact h.1.2

/-- A canonical text is not empty and has only digits and dots. -/
theorem canonical_name {t : Bytes} (h : isNumeral t = true) :
    canonical t ≠ [] ∧ ∀ b ∈ canonical t, isName b = true := by
  have hint : ∀ b ∈ (intPart t).dropWhile (· = 48), isDigit b = true := fun b hb =>
    List.mem_takeWhile_imp ((List.dropWhile_sublist _).subset hb)
  have hfrac := numeral_frac h
  have hhead : ∀ b ∈ (if fracPart t = [] then ([] : Bytes) else 46::fracPart t),
      isName b = true := by
    intro b hb
    split at hb
    · simp at hb
    · rcases List.mem_cons.mp hb with rfl | hb
      · decide
      · exact digit_name (hfrac b hb)
  unfold canonical
  split
  · refine ⟨by simp,fun b hb => ?_⟩
    rcases List.mem_append.mp hb with hb | hb
    · rw [List.mem_singleton.mp hb]
      decide
    · exact hhead b hb
  · rename_i d ds hd
    rw [hd] at hint
    refine ⟨by simp,fun b hb => ?_⟩
    rcases List.mem_append.mp hb with hb | hb
    · exact digit_name (hint b hb)
    · exact hhead b hb

theorem classify_number {run t : Bytes} (h : classify run = .number t) :
    isNumeral t = true := by
  unfold classify at h
  split at h
  · rename_i hn
    obtain rfl := Token.number.inj h
    exact hn
  · simp at h

theorem open_number {b : UInt8} {t : Bytes} : Token.number t ∉ (open_ b).1 := by
  unfold open_
  split_ifs <;> simp

theorem move_number {m : Mode} {b : UInt8} {t : Bytes} (h : Token.number t ∈ (move m b).1) :
    isNumeral t = true := by
  cases m with
  | ready => exact absurd h open_number
  | run text =>
    rw [move] at h
    split at h
    · simp at h
    · rcases List.mem_cons.mp h with h | h
      · exact classify_number h.symm
      · exact absurd h open_number
  | quoted q content =>
    rw [move] at h
    split_ifs at h <;> simp at h
  | escaped q content => simp [move] at h
  | closing q content =>
    rw [move] at h
    split at h
    · simp at h
    · rcases List.mem_cons.mp h with h | h
      · simp at h
      · exact absurd h open_number

theorem scan_number {m : Mode} {xs t : Bytes} (h : Token.number t ∈ (scan m xs).1) :
    isNumeral t = true := by
  induction xs generalizing m with
  | nil => simp [scan] at h
  | cons x xs ih =>
    rcases List.mem_append.mp h with h | h
    · exact move_number h
    · exact ih h

theorem tokens_number {xs t : Bytes} {ts : List Token} (h : tokens xs = some ts)
    (ht : Token.number t ∈ ts) : isNumeral t = true := by
  obtain ⟨us,hf,rfl⟩ := Option.map_eq_some_iff.mp h
  rcases List.mem_append.mp ht with ht | ht
  · exact scan_number ht
  · cases hm : (scan .ready xs).2 <;> rw [hm] at hf <;> simp [finish] at hf <;> subst hf
    · simp at ht
    · exact classify_number (List.mem_singleton.mp ht).symm
    · simp at ht

/-- A text no longer than `m` that reads as one literal denoting `m` has the
literal of a numeral, and `m` is the canonical text of its value. -/
theorem literal_canonical {x m : Bytes} {l : Token} (hx : x.length ≤ m.length)
    (h : tokens x = some [l]) (hl : l.denotes = some m) :
    ∃ t, l = .number t ∧ isNumeral t = true ∧ canonical t = m := by
  have hw := tokens_weight h
  cases l with
  | word t => simp [Token.denotes] at hl
  | punct b => simp [Token.denotes] at hl
  | string c =>
    obtain rfl := Option.some.inj hl
    simp only [weights, List.map_cons, List.map_nil, List.sum_singleton, Token.weight] at hw
    omega
  | number t => exact ⟨t,rfl,tokens_number h (by simp),Option.some.inj hl⟩

end SqlTokens

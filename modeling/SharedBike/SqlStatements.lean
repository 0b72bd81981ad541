import SharedBike.SqlBuffer
import SharedBike.Library.SqlTokens

/-!
# What the formatted statements mean

A mobile is pasted into the statement text as it is, neither quoted nor
escaped. The statement reads as its template with one literal for the mobile
only if the mobile is itself a decimal numeral in canonical form.
-/

set_option autoImplicit false

namespace SharedBike.SqlStatements
open LittleEndian SqlTokens
open SharedBike.Globals SharedBike.BikeProtocol SharedBike.UserService SharedBike.SqlBuffer

def word (s : String) : Token := .word (ascii s)

def existTokens : List Token :=
  [word "select", .punct 42, word "from", word "userinfo", word "where", word "mobile", .punct 61]

def insertTokens : List Token :=
  [word "insert", word "into", word "userinfo", .punct 40, word "mobile", .punct 41,
    word "values", .punct 40]

/-- The text that reaches the database is the C string of the buffer. It reads
as the template with one literal, and the literal stands for `m`. -/
def Reads (sql : Bytes) (before after : List Token) (m : Bytes) : Prop :=
  ∃ buf l, sprintfSql sql = .ok buf ∧ tokens (cStr buf) = some (before++l::after) ∧
    l.denotes = some m

def MeaningKept (m : Bytes) : Prop :=
  Reads (existSql m) existTokens [] m ∧ Reads (insertSql m) insertTokens [.punct 41] m

theorem sprintf_c_str {text buf : Bytes} (hn : ∀ b ∈ text, b ≠ 0)
    (h : sprintfSql text = .ok buf) : cStr buf = text := by
  unfold sprintfSql storeAt at h
  split at h
  · obtain rfl := Except.ok.inj h
    rw [List.take_zero, List.nil_append, List.append_assoc, cStr,
      List.takeWhile_append_of_pos (by simpa using hn)]
    simp
  · simp at h

theorem no_nul_of_all {text : Bytes} (h : text.all (· != 0) = true) : ∀ b ∈ text, b ≠ 0 := by
  simpa using h

theorem exist_no_nul (m : Bytes) : ∀ b ∈ existSql m, b ≠ 0 := by
  have ht : ∀ b ∈ ascii "select * from userinfo where mobile=", b ≠ 0 := no_nul_of_all rfl
  intro b hb
  rcases List.mem_append.mp hb with hb | hb
  · exact ht b hb
  · exact c_str_no_nul m b hb

theorem insert_no_nul (m : Bytes) : ∀ b ∈ insertSql m, b ≠ 0 := by
  have ht : ∀ b ∈ ascii "insert into userinfo (mobile) values (", b ≠ 0 := no_nul_of_all rfl
  have hc : ∀ b ∈ ascii ")", b ≠ 0 := no_nul_of_all rfl
  intro b hb
  rcases List.mem_append.mp hb with hb | hb
  · rcases List.mem_append.mp hb with hb | hb
    · exact ht b hb
    · exact c_str_no_nul m b hb
  · exact hc b hb

theorem exist_tokens (m : Bytes) :
    tokens (existSql m) = (tokens (cStr m)).map (existTokens++·) :=
  tokens_append (by decide) _

theorem insert_tokens (m : Bytes) :
    tokens (insertSql m) = (tokens (cStr m++[41])).map (insertTokens++·) := by
  rw [insertSql, List.append_assoc]
  exact tokens_append (by decide) _

theorem name_not_nul {m : Bytes} (h : ∀ b ∈ m, isName b = true) : ∀ b ∈ m, b ≠ 0 := by
  rintro b hb rfl
  exact absurd (h 0 hb) (by decide)

/-- A statement that fits reads as its template around the one literal. -/
theorem reads_of_tokens {sql : Bytes} {before after : List Token} {m : Bytes} {l : Token}
    (hn : ∀ b ∈ sql, b ≠ 0) (hfit : sql.length+1 ≤ sqlContentLen)
    (ht : tokens sql = some (before++l::after)) (hl : l.denotes = some m) :
    Reads sql before after m := by
  rcases sprintf_cases sql with ⟨-,buf,hb⟩ | ⟨hlong,-⟩
  · exact ⟨buf,l,hb,by rw [sprintf_c_str hn hb, ht],hl⟩
  · omega

/-- The statements for `m` keep their meaning exactly if `m` is a decimal
numeral in canonical form of at most 984 bytes. -/
theorem meaning_kept_iff (m : Bytes) :
    MeaningKept m ↔ isNumeral m = true ∧ canonical m = m ∧ m.length ≤ 984 := by
  have hinsert := insert_sql_length m
  have hexist := exist_sql_length m
  have hbuf : sqlContentLen = 1024 := rfl
  constructor
  · rintro ⟨⟨buf,l,hb,ht,hl⟩,buf',-,hb',-,-⟩
    rw [sprintf_c_str (exist_no_nul m) hb, exist_tokens, Option.map_eq_some_iff] at ht
    obtain ⟨ts,hts,hcat⟩ := ht
    obtain rfl := List.append_cancel_left hcat
    obtain ⟨t,rfl,hnum,hcanon⟩ := literal_canonical (c_str_length m) hts hl
    obtain ⟨hne,hname⟩ := canonical_name hnum
    rw [hcanon] at hne hname
    have hself := c_str_self (name_not_nul hname)
    rw [hself, tokens_name hne hname, Option.some.injEq, List.cons.injEq] at hts
    have htm : t = m := by
      have hc := hts.1
      unfold classify at hc
      split at hc
      · exact (Token.number.inj hc).symm
      · simp at hc
    rw [hself] at hinsert
    refine ⟨htm ▸ hnum,htm ▸ hcanon,?_⟩
    rcases sprintf_cases (insertSql m) with ⟨hfit,-⟩ | ⟨-,herr⟩
    · omega
    · rw [herr] at hb'
      simp at hb'
  · rintro ⟨hnum,hcanon,hlen⟩
    obtain ⟨hne,hname⟩ := canonical_name hnum
    rw [hcanon] at hne hname
    have hself := c_str_self (name_not_nul hname)
    have hclass : classify m = .number m := if_pos hnum
    have hden : (Token.number m).denotes = some m := congrArg some hcanon
    rw [hself] at hinsert hexist
    constructor
    · refine reads_of_tokens (exist_no_nul m) (by omega) ?_ hden
      rw [exist_tokens, hself, tokens_name hne hname, hclass]
      rfl
    · refine reads_of_tokens (insert_no_nul m) (by omega) ?_ hden
      rw [insert_tokens, hself, tokens_name_punct hne hname (by decide) (by decide), hclass]
      rfl

/-- The mobile that turns the select into one for every row. -/
def everyRow : Bytes := ascii "1 or 1=1"

theorem every_row_selected :
    (∃ c codeReq loginReq, Delivered proto2 everyRow c codeReq loginReq) ∧
      tokens (existSql everyRow) = some (existTokens++
        [.number [49], word "or", .number [49], .punct 61, .number [49]]) ∧
      ¬ MeaningKept everyRow := by
  obtain ⟨codeReq,loginReq,hd⟩ := delivered_of_length everyRow 7 (by decide)
  have ht : tokens (existSql everyRow) = some (existTokens++
      [.number [49], word "or", .number [49], .punct 61, .number [49]]) := by decide
  refine ⟨⟨7,codeReq,loginReq,hd⟩,ht,?_⟩
  rintro ⟨⟨buf,l,hb,hl,-⟩,-⟩
  rw [sprintf_c_str (exist_no_nul everyRow) hb, ht, Option.some.injEq] at hl
  have := List.append_cancel_left hl
  simp at this

end SharedBike.SqlStatements

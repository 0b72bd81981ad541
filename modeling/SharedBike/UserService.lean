import SharedBike.Events

/-!
# The user table and its two statements

Both statements are formatted with `sprintf` into a buffer of 1024 bytes, from
the C string of the mobile. A select is answered with the rows whose mobile is
the given one, an insert appends one row; either may fail without an effect.
-/

set_option autoImplicit false

namespace SharedBike.UserService
open LittleEndian SharedBike.Globals

/-- The `mobile` column of the rows of `userinfo`, oldest first. -/
abbrev UserInfo := List Bytes

def sqlContentLen : ℕ := 1024

def existSql (mobile : Bytes) : Bytes :=
  ascii "select * from userinfo where mobile="++cStr mobile

def insertSql (mobile : Bytes) : Bytes :=
  ascii "insert into userinfo (mobile) values ("++cStr mobile++ascii ")"

/-- The text and its terminating NUL are written from the first cell on. -/
def sprintfSql (text : Bytes) : Except Fault Bytes :=
  storeAt (List.replicate sqlContentLen 0) 0 (text++[0])

/-- How the server answers a select: the query fails, its result cannot be
stored, or the rows are there. -/
inductive Answer where
  | queryFailed
  | noResult
  | rows
  deriving DecidableEq, Repr

/-- `Execute` with a record set: the number of rows, or nothing when it fails. -/
def execute (answer : Answer) (rows : ℕ) : Option ℕ :=
  match answer with
  | .queryFailed => none
  | .noResult => none
  | .rows => some rows

def exist (table : UserInfo) (answer : Answer) (mobile : Bytes) : Except Fault Bool :=
  match sprintfSql (existSql mobile) with
  | .error f => .error f
  | .ok _ => match execute answer (table.count mobile) with
    | none => .ok false
    | some count => .ok (count != 0)

def insert (table : UserInfo) (ok : Bool) (mobile : Bytes) : Except Fault (Bool × UserInfo) :=
  match sprintfSql (insertSql mobile) with
  | .error f => .error f
  | .ok _ => .ok (if ok then (true, table++[mobile]) else (false, table))

theorem exist_rows {table : UserInfo} {mobile : Bytes} {b : Bool}
    (h : exist table .rows mobile = .ok b) : b = true ↔ table.count mobile ≠ 0 := by
  unfold exist at h
  split at h
  · simp at h
  · simp only [execute, Except.ok.injEq] at h
    rw [← h]
    simp

theorem insert_cases {table table' : UserInfo} {ok b : Bool} {mobile : Bytes}
    (h : insert table ok mobile = .ok (b, table')) :
    b = ok ∧ table' = if ok then table++[mobile] else table := by
  unfold insert at h
  split at h
  · simp at h
  · cases ok <;> simp_all

theorem exist_sql_length (mobile : Bytes) :
    (existSql mobile).length = 36+(cStr mobile).length := by
  have ht : (ascii "select * from userinfo where mobile=").length = 36 := by decide
  rw [existSql, List.length_append, ht]

theorem insert_sql_length (mobile : Bytes) :
    (insertSql mobile).length = 39+(cStr mobile).length := by
  have ht : (ascii "insert into userinfo (mobile) values (").length = 38 := by decide
  have hc : (ascii ")").length = 1 := by decide
  rw [insertSql, List.length_append, List.length_append, ht, hc]
  omega

/-- `sprintf` stays inside the buffer exactly if the text and its NUL fit. -/
theorem sprintf_cases (text : Bytes) :
    (text.length+1 ≤ sqlContentLen ∧ ∃ buf, sprintfSql text = .ok buf) ∨
    (sqlContentLen < text.length+1 ∧ sprintfSql text = .error .outOfBounds) := by
  have hl : (text++[0]).length = text.length+1 := by simp
  by_cases h : text.length+1 ≤ sqlContentLen
  · exact Or.inl ⟨h,_,store_at_ok (by rw [hl, List.length_replicate]; omega)⟩
  · refine Or.inr ⟨by omega,?_⟩
    rw [sprintfSql, storeAt, if_neg (by rw [hl, List.length_replicate]; omega)]

theorem exist_error {table : UserInfo} {answer : Answer} {mobile : Bytes} {f : Fault} :
    exist table answer mobile = .error f ↔
      f = .outOfBounds ∧ sqlContentLen < (existSql mobile).length+1 := by
  unfold exist
  rcases sprintf_cases (existSql mobile) with ⟨h,buf,hb⟩ | ⟨h,hb⟩ <;> rw [hb]
  · refine ⟨fun hx => ?_,fun hx => by omega⟩
    cases answer <;> simp [execute] at hx
  · exact ⟨fun hx => ⟨(Except.error.inj hx).symm,h⟩,fun hx => by rw [hx.1]⟩

theorem insert_error {table : UserInfo} {ok : Bool} {mobile : Bytes} {f : Fault} :
    insert table ok mobile = .error f ↔
      f = .outOfBounds ∧ sqlContentLen < (insertSql mobile).length+1 := by
  unfold insert
  rcases sprintf_cases (insertSql mobile) with ⟨h,buf,hb⟩ | ⟨h,hb⟩ <;> rw [hb]
  · exact ⟨fun hx => by simp at hx,fun hx => by omega⟩
  · exact ⟨fun hx => ⟨(Except.error.inj hx).symm,h⟩,fun hx => by rw [hx.1]⟩

end SharedBike.UserService

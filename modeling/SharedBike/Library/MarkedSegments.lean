import Mathlib.Data.List.Basic
import Mathlib.Tactic.Common

/-!
# Segments that begin with a mark

A mark is one element followed by another. Where each segment of a list begins
with the mark and holds no other, a second division of the list, whose pieces
are answered only at a mark, is answered like the first only by being the first.
-/

set_option autoImplicit false

namespace MarkedSegments
variable {α β : Type} {x y : α}

/-- The list begins with `x`, and `y` follows. -/
def Begins (x y : α) : List α → Prop
  | a::b::_ => a = x ∧ b = y
  | _ => False

theorem begins_append {a b : List α} (h : Begins x y a) : Begins x y (a++b) := by
  match a, h with
  | _::_::_, h => exact h

variable [DecidableEq α]

instance (l : List α) : Decidable (Begins x y l) :=
  match l with
  | [] => isFalse id
  | [_] => isFalse id
  | a::b::_ => inferInstanceAs (Decidable (a = x ∧ b = y))

/-- The number of places at which `y` follows `x`. -/
def marks (x y : α) : List α → ℕ
  | [] => 0
  | a::l => (if Begins x y (a::l) then 1 else 0)+marks x y l

theorem marks_cons (a : α) (l : List α) :
    marks x y (a::l) = (if Begins x y (a::l) then 1 else 0)+marks x y l := rfl

theorem marks_cons_ne {a : α} {l : List α} (h : a ≠ x) : marks x y (a::l) = marks x y l := by
  cases l with
  | nil => rfl
  | cons b l => simp [marks, Begins, h]

theorem marks_follower_ne {a b : α} {l : List α} (h : b ≠ y) :
    marks x y (a::b::l) = marks x y (b::l) := by
  rw [marks, if_neg fun hb => h hb.2, Nat.zero_add]

theorem marks_append_le (a b : List α) : marks x y a+marks x y b ≤ marks x y (a++b) := by
  induction a with
  | nil => simp [marks]
  | cons c a ih =>
    rw [List.cons_append, marks, marks]
    by_cases h : Begins x y (c::a)
    · rw [if_pos h, if_pos (show Begins x y (c::(a++b)) from begins_append h)]
      omega
    · rw [if_neg h]
      omega

theorem marks_begins {l : List α} (h : Begins x y l) : 1 ≤ marks x y l := by
  match l, h with
  | a::b::l, h =>
    rw [marks, if_pos h]
    omega

/-- What is left of a marked list has one mark less. -/
theorem marks_dropped {a b : List α} (ha : a ≠ []) (h : Begins x y (a++b)) :
    marks x y b+1 ≤ marks x y (a++b) := by
  cases a with
  | nil => exact absurd rfl ha
  | cons c a =>
    have := @marks_append_le α x y _ a b
    rw [List.cons_append] at h
    rw [List.cons_append, marks, if_pos h]
    omega

/-- Unless the first list ends in `x` and the second begins with `y`, no mark
lies across the two. -/
theorem marks_append {a b : List α} (h : a.getLast? = some x → b.head? ≠ some y) :
    marks x y (a++b) = marks x y a+marks x y b := by
  induction a with
  | nil => simp [marks]
  | cons c a ih =>
    cases a with
    | nil =>
      have hc : marks x y [c] = 0 := rfl
      rw [List.singleton_append, marks_cons, hc, if_neg fun hb => ?_]
      cases b with
      | nil => exact hb
      | cons d b => exact h (by simp [hb.1]) (by simp [hb.2])
    | cons d a =>
      have hcd : Begins x y (c::(d::a++b)) ↔ Begins x y (c::d::a) := Iff.rfl
      rw [List.cons_append, marks_cons c, marks_cons c, ih (by simpa using h),
        if_congr hcd rfl rfl, Nat.add_assoc]

/-- A list with the mark at its beginning and nowhere else, and not across its end. -/
structure Marked (x y : α) (l : List α) : Prop where
  begins : Begins x y l
  once : marks x y l ≤ 1
  ends : l.getLast? ≠ some x

theorem Marked.ne_nil {l : List α} (h : Marked x y l) : l ≠ [] := by
  rintro rfl
  exact h.begins

theorem marks_flatten (ls : List (List α)) (h : ∀ l ∈ ls, Marked x y l) :
    marks x y ls.flatten ≤ ls.length := by
  induction ls with
  | nil => simp [marks]
  | cons l ls ih =>
    have hl := h l (by simp)
    have := hl.once
    have := ih fun l hl => h l (by simp [hl])
    rw [List.flatten_cons, marks_append fun hx => absurd hx hl.ends, List.length_cons]
    omega

section Division
variable {answer : List α → Option β}

/-- A division is answered at most once for each mark. -/
theorem answers_le (hmark : ∀ r, (answer r).isSome → Begins x y r) (rs : List (List α)) :
    (rs.filterMap answer).length ≤ marks x y rs.flatten := by
  induction rs with
  | nil => simp
  | cons r rs ih =>
    have happ := @marks_append_le α x y _ r rs.flatten
    rw [List.flatten_cons, List.filterMap_cons]
    cases hr : answer r with
    | none => simp only; omega
    | some b =>
      have := marks_begins (hmark r (by simp [hr]))
      simp only [List.length_cons]
      omega

/-- Past the beginning of the first segment a division is answered less often
than there are segments. -/
theorem answers_lost (hmark : ∀ r, (answer r).isSome → Begins x y r) {ls : List (List α)}
    (h : ∀ l ∈ ls, Marked x y l) {lost : List α} {rs : List (List α)} (hlost : lost ≠ [])
    (hsame : lost++rs.flatten = ls.flatten) : (rs.filterMap answer).length < ls.length := by
  cases ls with
  | nil => exact absurd (List.append_eq_nil_iff.mp hsame).1 hlost
  | cons l ls =>
    have hbegin : Begins x y (lost++rs.flatten) := by
      rw [hsame, List.flatten_cons]
      exact begins_append (h l (by simp)).begins
    have hdrop := marks_dropped hlost hbegin
    have hall := marks_flatten _ h
    have hans := answers_le hmark rs
    rw [hsame] at hdrop
    omega

/-- The first piece has the first segment's answer: without one, too few answers
are left for the rest. -/
theorem first_answered (hmark : ∀ r, (answer r).isSome → Begins x y r) {s : List α × β}
    {later : List (List α × β)} (hall : ∀ l ∈ (s::later).map Prod.fst, Marked x y l)
    {r : List α} {rs : List (List α)} (hr : r ≠ [])
    (hsame : (r::rs).flatten = ((s::later).map Prod.fst).flatten)
    (hanswer : (r::rs).filterMap answer = (s::later).map Prod.snd) :
    answer r = some s.2 ∧ rs.filterMap answer = later.map Prod.snd := by
  rw [List.filterMap_cons] at hanswer
  cases hrs : answer r with
  | none =>
    have hlost := answers_lost hmark hall hr hsame
    simp only [hrs] at hanswer
    rw [hanswer] at hlost
    simp at hlost
  | some b =>
    simp only [hrs, List.map_cons, List.cons.injEq] at hanswer
    exact ⟨by rw [hanswer.1],hanswer.2⟩

/-- The pieces are the segments, if they are answered like them and no proper
beginning of a segment has the segment's answer. -/
theorem pieces_are_segments (hmark : ∀ r, (answer r).isSome → Begins x y r)
    (segments : List (List α × β)) (hseg : ∀ s ∈ segments, Marked x y s.1)
    (hcut : ∀ s ∈ segments, ∀ r t, r ≠ [] → t ≠ [] → s.1 = r++t → answer r ≠ some s.2)
    (pieces : List (List α)) (hne : ∀ r ∈ pieces, r ≠ [])
    (hsame : pieces.flatten = (segments.map Prod.fst).flatten)
    (hanswer : pieces.filterMap answer = segments.map Prod.snd) :
    pieces = segments.map Prod.fst := by
  induction segments generalizing pieces with
  | nil =>
    cases pieces with
    | nil => rfl
    | cons r rs => exact absurd (List.append_eq_nil_iff.mp hsame).1 (hne r (by simp))
  | cons s later ih =>
    have hall : ∀ l ∈ (s::later).map Prod.fst, Marked x y l := by
      intro l hl
      obtain ⟨s',hs',rfl⟩ := List.mem_map.mp hl
      exact hseg s' hs'
    have hlater : ∀ l ∈ later.map Prod.fst, Marked x y l := fun l hl => hall l (by simp_all)
    have hs := hseg s (by simp)
    cases pieces with
    | nil =>
      rw [List.map_cons, List.flatten_cons] at hsame
      exact absurd (List.append_eq_nil_iff.mp hsame.symm).1 hs.ne_nil
    | cons r rs =>
      have hr := hne r (by simp)
      have hfirst := first_answered hmark hall hr hsame hanswer
      have hwhole : r = s.1 → rs.flatten = (later.map Prod.fst).flatten →
          r::rs = (s::later).map Prod.fst := by
        intro hrs hrest
        rw [List.map_cons, hrs, ih (fun s' hs' => hseg s' (by simp [hs']))
          (fun s' hs' => hcut s' (by simp [hs'])) rs (fun r' hr' => hne r' (by simp [hr']))
          hrest hfirst.2]
      have hsplit : r++rs.flatten = s.1++(later.map Prod.fst).flatten := hsame
      rcases List.append_eq_append_iff.mp hsplit with ⟨t,hst,hrs⟩ | ⟨t,hrt,hrest⟩
      · -- the first piece ends inside the first segment, or with it
        by_cases ht : t = []
        · subst ht
          exact hwhole (by simpa using hst.symm) (by simpa using hrs)
        · exact absurd hfirst.1 (hcut s (by simp) r t hr ht hst)
      · -- the first piece ends with the first segment, or reaches into the second
        by_cases ht : t = []
        · subst ht
          exact hwhole (by simpa using hrt) (by simpa using hrest.symm)
        · have hlost := answers_lost hmark hlater ht hrest.symm
          rw [hfirst.2] at hlost
          simp at hlost

end Division

end MarkedSegments

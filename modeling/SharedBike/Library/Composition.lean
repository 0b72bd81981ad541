import SharedBike.Library.GuardedRuns

/-!
# Components of a composed machine

A machine composed of others moves some of its components in each step. Seen
from one component, a run of the whole is a run of that component. Two machines
side by side share their actions: each takes its part of an action, which may be
several of its own steps or none.
-/

set_option autoImplicit false

namespace GuardedRuns.Machine

variable {σ τ α β φ ψ : Type*} {M : Machine σ α φ} {N : Machine τ β ψ}
variable {G : σ → α → Prop} {K : τ → β → Prop} {s t : σ} {as : List α}

namespace Run

/-- The projection rule: each step moves the component by some run of its own,
often by none or by one step. -/
theorem project {I : σ → Prop} {f : σ → τ} (hr : M.Run G s as t) (h0 : I s)
    (hstep : ∀ t a u, I t → G t a → M.Next t a u → I u ∧ ∃ bs, N.Run K (f t) bs (f u)) :
    I t ∧ ∃ bs, N.Run K (f s) bs (f t) := by
  induction hr with
  | nil => exact ⟨h0,[],.nil⟩
  | snoc _ hg hn ih =>
    obtain ⟨hi,bs,hbs⟩ := ih
    obtain ⟨hi',cs,hcs⟩ := hstep _ _ _ hi hg hn
    exact ⟨hi',bs++cs,hbs.append hcs⟩

end Run

/-- Several actions in a row, up to the first that is disabled or faults. -/
def steps (M : Machine σ α φ) (s : σ) : List α → Option (Except φ σ)
  | [] => some (.ok s)
  | a::as => match M.step s a with
    | some (.ok t) => steps M t as
    | r => r

theorem steps_run : M.steps s as = some (.ok t) ↔ M.Run Free s as t := by
  constructor
  · intro h
    induction as generalizing s with
    | nil =>
      obtain rfl := Except.ok.inj (Option.some.inj h)
      exact .nil
    | cons a as ih =>
      rw [steps] at h
      split at h
      · rename_i u hu
        exact .cons trivial hu (ih h)
      · rename_i hno
        exact absurd h (hno t)
  · intro h
    induction as generalizing s with
    | nil =>
      obtain rfl := Option.some.inj h.replay_eq
      rfl
    | cons a as ih =>
      have h : M.Run Free s ([a]++as) t := h
      obtain ⟨u,h1,h2⟩ := h.split
      rw [steps, show M.step s a = _ from h1.one]
      exact ih h2

/-- Two machines side by side; the part of the right one may depend on the left. -/
def beside (M : Machine σ α φ) (N : Machine τ β ψ) {γ : Type*} (left : γ → List α)
    (right : σ → γ → List β) : Machine (σ × τ) γ (φ ⊕ ψ) where
  step s c := (M.steps s.1 (left c)).bind fun r => (N.steps s.2 (right s.1 c)).map fun q =>
    (r.mapError .inl).bind fun t => (q.mapError .inr).map fun u => (t, u)

section Beside

variable {γ : Type*} {left : γ → List α} {right : σ → γ → List β} {c : γ} {u v : σ × τ}

theorem beside_next : (beside M N left right).Next u c v ↔
    M.Run Free u.1 (left c) v.1 ∧ N.Run Free u.2 (right u.1 c) v.2 := by
  rw [← steps_run, ← steps_run]
  simp only [Next, beside, Option.bind_eq_some_iff, Option.map_eq_some_iff]
  constructor
  · rintro ⟨r,hr,q,hq,h⟩
    cases r with
    | error f => simp [Except.mapError, Except.bind] at h
    | ok t =>
      cases q with
      | error f => simp [Except.mapError, Except.bind, Except.map] at h
      | ok w =>
        obtain rfl : (t, w) = v := Except.ok.inj h
        exact ⟨hr,hq⟩
  · rintro ⟨h1,h2⟩
    exact ⟨_,h1,_,h2,rfl⟩

/-- A fault of the two is a fault of one of them, the other one not being disabled. -/
theorem beside_fails {f : φ ⊕ ψ} (h : (beside M N left right).Fails u c f) :
    (∃ e, f = .inl e ∧ M.steps u.1 (left c) = some (.error e)) ∨
      ∃ e t, f = .inr e ∧ M.Run Free u.1 (left c) t ∧
        N.steps u.2 (right u.1 c) = some (.error e) := by
  simp only [Fails, beside, Option.bind_eq_some_iff, Option.map_eq_some_iff] at h
  obtain ⟨r,hr,q,hq,h⟩ := h
  cases r with
  | error e => exact Or.inl ⟨e,(Except.error.inj h).symm,hr⟩
  | ok t =>
    cases q with
    | error e => exact Or.inr ⟨e,t,(Except.error.inj h).symm,steps_run.mp hr,hq⟩
    | ok w => simp [Except.mapError, Except.bind, Except.map] at h

end Beside

end GuardedRuns.Machine

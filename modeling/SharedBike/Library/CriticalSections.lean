import SharedBike.Library.GuardedRuns

/-!
# Sections under a mutex

Threads that work under one mutex, statement by statement, are simulated by a
machine that makes each section in one step, when the mutex is let go. Until
then the open section is an effect on the state in which it will be made, and
what the other threads do meanwhile has to commute with that effect.
-/

set_option autoImplicit false

namespace GuardedRuns.Machine

variable {σ τ α β φ ψ : Type*} {M : Machine σ α φ} {N : Machine τ β ψ}
variable {G : σ → α → Prop} {K : τ → β → Prop} {s t : σ} {as : List α}

/-- The stuttering simulation rule: each step is simulated by some run of steps,
often by none or by one. The run that simulates is at hand in each step. -/
theorem Run.stutter {R : σ → τ → Prop} {s' : τ} (hr : M.Run G s as t) (h0 : R s s')
    (hstep : ∀ bs t t' a u, R t t' → N.Run K s' bs t' → G t a → M.Next t a u →
      ∃ cs u', N.Run K t' cs u' ∧ R u u') : ∃ bs t', N.Run K s' bs t' ∧ R t t' := by
  induction hr with
  | nil => exact ⟨[],s',.nil,h0⟩
  | snoc _ hg hn ih =>
    obtain ⟨bs,t',hrun,ht⟩ := ih
    obtain ⟨cs,u',hcs,hu⟩ := hstep _ _ _ _ _ ht hrun hg hn
    exact ⟨bs++cs,u',hrun.append hcs,hu⟩

end GuardedRuns.Machine

namespace CriticalSections
open GuardedRuns

/-- The shared state, and how far the thread that holds the mutex has come. -/
structure Locked (σ π : Type*) where
  base : σ
  holder : Option π

/-- What an open section has done, and what it relies on, in terms of the state
in which it will be made. -/
structure Sections (σ π : Type*) where
  effect : π → σ → σ
  Valid : π → σ → Prop

variable {σ π α β φ ψ : Type*} {M : Machine (Locked σ π) α φ} {N : Machine σ β ψ}
variable {K : σ → β → Prop} (S : Sections σ π)

def Settled (s : Locked σ π) (c : σ) : Prop :=
  match s.holder with
  | none => s.base = c
  | some p => S.Valid p c ∧ s.base = S.effect p c

/-- How one step is seen from the state in which the open section will be made:
it takes the mutex, or it is a statement of the section, or it is made at once,
or it ends the section, which is then made. -/
inductive Seen (N : Machine σ β ψ) (K : σ → β → Prop) (c : σ) (s t : Locked σ π) : Prop
  | take {p : π} (free : s.holder = none) (held : t.holder = some p) (valid : S.Valid p s.base)
      (done : t.base = S.effect p s.base)
  | work {p q : π} (held : s.holder = some p) (still : t.holder = some q) (valid : S.Valid q c)
      (done : t.base = S.effect q c)
  | apart {b : β} {d : σ} (guard : K c b) (next : N.Next c b d) (same : t.holder = s.holder)
      (settled : Settled S t d)
  | make {p : π} {b : β} (held : s.holder = some p) (free : t.holder = none) (guard : K c b)
      (next : N.Next c b t.base)

/-- Sections are atomic: the run in which each is made in one step ends in the
same state, but for the section that is still open. -/
theorem sections_atomic {G : Locked σ π → α → Prop} {s t : Locked σ π} {as : List α}
    (hr : M.Run G s as t) (h0 : s.holder = none)
    (hseen : ∀ bs u c a v, Settled S u c → N.Run K s.base bs c → G u a → M.Next u a v →
      Seen S N K c u v) : ∃ bs c, N.Run K s.base bs c ∧ Settled S t c := by
  refine hr.stutter (R := Settled S) (by simp [Settled, h0]) fun bs u c a v hs hrun hg hn => ?_
  cases hseen bs u c a v hs hrun hg hn with
  | @take p free held valid done =>
    have hc : u.base = c := by simpa [Settled, free] using hs
    exact ⟨[],c,.nil,by simp [Settled, held, ← hc, valid, done]⟩
  | @work p q held still valid done =>
    exact ⟨[],c,.nil,by simp [Settled, still, valid, done]⟩
  | @apart b d guard next same settled => exact ⟨[b],d,.single guard next,settled⟩
  | @make p b held free guard next =>
    exact ⟨[b],v.base,.single guard next,by simp [Settled, free]⟩

end CriticalSections

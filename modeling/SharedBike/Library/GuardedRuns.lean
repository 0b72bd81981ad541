import Mathlib.Data.List.Basic
import Mathlib.Data.List.Induction
import Mathlib.Algebra.GroupWithZero.Nat

/-!
# Guarded runs of a labelled machine

A machine step is either disabled, ends in a fault, or leads to one next
state. A run records the actions it took; its guard is a condition on every
step, read in the state the step leaves. The trivial guard gives all runs.
-/

set_option autoImplicit false

namespace GuardedRuns

structure Machine (σ α φ : Type*) where
  step : σ → α → Option (Except φ σ)

namespace Machine

variable {σ α φ : Type*} (M : Machine σ α φ)

def Next (s : σ) (a : α) (t : σ) : Prop := M.step s a = some (.ok t)

def Fails (s : σ) (a : α) (f : φ) : Prop := M.step s a = some (.error f)

inductive Run (G : σ → α → Prop) (s : σ) : List α → σ → Prop
  | nil : Run G s [] s
  | snoc {t u : σ} {as : List α} {a : α} (run : Run G s as t) (guard : G t a)
      (next : M.Next t a u) : Run G s (as++[a]) u

def Free (_ : σ) (_ : α) : Prop := True

/-- Replays a list of actions, stopping at a disabled or failing step. -/
def replay (s : σ) : List α → Option σ
  | [] => some s
  | a::as => match M.step s a with
    | some (.ok t) => replay t as
    | _ => none

variable {M} {G H : σ → α → Prop} {s t u : σ} {a : α} {as bs : List α}

namespace Run

/-- The run rule with the actions taken so far as part of the invariant. -/
theorem traced {I : List α → σ → Prop} (hr : M.Run G s as t) (h0 : I [] s)
    (hstep : ∀ as t a u, I as t → G t a → M.Next t a u → I (as++[a]) u) : I as t := by
  induction hr with
  | nil => exact h0
  | snoc _ hg hn ih => exact hstep _ _ _ _ ih hg hn

/-- The run rule: what the first state has and every guarded step keeps,
every state of the run has. -/
theorem invariant {I : σ → Prop} (hr : M.Run G s as t) (h0 : I s)
    (hstep : ∀ t a u, I t → G t a → M.Next t a u → I u) : I t :=
  @traced _ _ _ M G s t as (fun _ t => I t) hr h0 (fun _ => hstep)

/-- The balance rule: where each step takes the cost of its action off the rank and
its gain adds to it, the costs of a run come out of the first rank and the gains. -/
theorem balanced {I : σ → Prop} {cost gain : α → ℕ} {rank : σ → ℕ} (hr : M.Run G s as t)
    (h0 : I s) (hstep : ∀ t a u, I t → G t a → M.Next t a u →
      I u ∧ cost a+rank u ≤ rank t+gain a) :
    I t ∧ (as.map cost).sum+rank t ≤ rank s+(as.map gain).sum := by
  induction hr with
  | nil => exact ⟨h0,by simp⟩
  | @snoc t u as a _ hg hn ih =>
    obtain ⟨hi,hle⟩ := ih
    obtain ⟨hi',hle'⟩ := hstep _ _ _ hi hg hn
    have hlast : ∀ f : α → ℕ, ([a].map f).sum = f a := fun _ => rfl
    refine ⟨hi',?_⟩
    rw [List.map_append, List.map_append, List.sum_append_nat, List.sum_append_nat, hlast, hlast]
    omega

/-- The ranking rule: nothing is gained. -/
theorem ranked {I : σ → Prop} {cost : α → ℕ} {rank : σ → ℕ} (hr : M.Run G s as t) (h0 : I s)
    (hstep : ∀ t a u, I t → G t a → M.Next t a u → I u ∧ cost a+rank u ≤ rank t) :
    I t ∧ (as.map cost).sum+rank t ≤ rank s := by
  have hsum : (as.map fun _ => 0).sum = 0 := by simp
  have h := @balanced _ _ _ M G s t as I cost (fun _ => 0) rank hr h0 hstep
  rwa [hsum, Nat.add_zero] at h

theorem append (hr : M.Run G s as t) (hs : M.Run G t bs u) : M.Run G s (as++bs) u := by
  induction hs with
  | nil => simpa using hr
  | snoc _ hg hn ih => rw [← List.append_assoc]; exact .snoc ih hg hn

theorem single (hg : G s a) (hn : M.Next s a t) : M.Run G s [a] t :=
  .snoc .nil hg hn

theorem one (hr : M.Run G s [a] t) : M.Next s a t := by
  generalize has : [a] = as at hr
  cases hr with
  | nil => simp at has
  | snoc hr hg hn =>
    obtain ⟨rfl,hb⟩ := List.append_inj' (show []++[a] = _ from has) rfl
    obtain rfl := List.singleton_inj.mp hb
    generalize hnil : ([] : List α) = bs at hr
    cases hr with
    | nil => exact hn
    | snoc => simp at hnil

theorem cons (hg : G s a) (hn : M.Next s a t) (hr : M.Run G t as u) :
    M.Run G s (a::as) u :=
  (single hg hn).append hr

/-- Steps are functions, so the actions determine the last state. -/
theorem replay_eq (hr : M.Run G s as t) : M.replay s as = some t := by
  suffices h : ∀ bs, M.replay s (as++bs) = M.replay t bs by simpa [replay] using h []
  induction hr with
  | nil => simp
  | snoc _ _ hn ih =>
    intro bs
    rw [List.append_assoc, ih, List.singleton_append, replay]
    have he := hn
    rw [Next] at he
    simp [he]

theorem unique (hr : M.Run G s as t) (hs : M.Run H s as u) : t = u :=
  Option.some.inj (hr.replay_eq.symm.trans hs.replay_eq)

theorem split (hr : M.Run G s (as++bs) u) : ∃ t, M.Run G s as t ∧ M.Run G t bs u := by
  induction bs using List.reverseRecOn generalizing u with
  | nil => exact ⟨u,by simpa using hr,.nil⟩
  | append_singleton bs b ih =>
    rw [← List.append_assoc] at hr
    generalize hcs : as++bs++[b] = cs at hr
    cases hr with
    | nil => simp at hcs
    | snoc hr hg hn =>
      obtain ⟨rfl,hb⟩ := List.append_inj' hcs rfl
      obtain rfl := List.singleton_inj.mp hb
      obtain ⟨v,h1,h2⟩ := ih hr
      exact ⟨v,h1,.snoc h2 hg hn⟩

/-- An invariant of a guarded run holds in every state the run passes. -/
theorem everywhere (hr : M.Run G s as u) (I : σ → Prop) (h0 : I s)
    (hstep : ∀ t a v, I t → G t a → M.Next t a v → I v) (hb : bs <+: as)
    (hs : M.Run H s bs t) : I t := by
  obtain ⟨rest,rfl⟩ := hb
  obtain ⟨v,hv,-⟩ := hr.split
  rw [← hv.unique hs]
  exact @invariant _ _ _ M G s v bs I hv h0 hstep

/-- The simulation rule. The run that simulates is at hand in each step, for
what its own states are known to have. -/
theorem simulate {τ ψ : Type*} {N : Machine τ α ψ} {K : τ → α → Prop} {R : σ → τ → Prop}
    {s' : τ} (hr : M.Run G s as t) (h0 : R s s')
    (hstep : ∀ as t t' a u, R t t' → N.Run K s' as t' → G t a → M.Next t a u →
      ∃ u', K t' a ∧ N.Next t' a u' ∧ R u u') : ∃ t', N.Run K s' as t' ∧ R t t' := by
  induction hr with
  | nil => exact ⟨s',.nil,h0⟩
  | snoc _ hg hn ih =>
    obtain ⟨t',hrun,ht⟩ := ih
    obtain ⟨u',hk,hn',hu⟩ := hstep _ _ t' _ _ ht hrun hg hn
    exact ⟨u',.snoc hrun hk hn',hu⟩

/-- A run meets any guard that each of its steps meets. -/
theorem guarded_at (hr : M.Run G s as u)
    (hg : ∀ bs a t, bs++[a] <+: as → M.Run H s bs t → G t a → H t a) : M.Run H s as u := by
  induction hr with
  | nil => exact .nil
  | @snoc t v as a hr hga hn ih =>
    have hr' := ih fun bs b w hb hw => hg bs b w (hb.trans (List.prefix_append _ _)) hw
    exact .snoc hr' (hg as a t List.prefix_rfl hr' hga) hn

/-- What every state of a run has may show that its steps meet a stronger guard. -/
theorem guarded {P : σ → Prop} (hr : M.Run G s as u)
    (hp : ∀ bs t, bs <+: as → M.Run G s bs t → P t)
    (hg : ∀ bs t a v, M.Run H s bs t → P t → P v → G t a → M.Next t a v → H t a) :
    M.Run H s as u := by
  apply hr.guarded_at
  intro bs a t hb ht hga
  obtain ⟨rest,rfl⟩ := hb
  obtain ⟨v,hv,-⟩ := hr.split
  obtain ⟨t',ht',hlast⟩ := hv.split
  obtain rfl := ht.unique ht'
  refine hg bs t a v ht (hp bs t ?_ ht') (hp (bs++[a]) v (List.prefix_append _ _) hv) hga ?_
  · rw [List.append_assoc]
    exact List.prefix_append _ _
  · exact hlast.one

end Run

theorem run_of_replay (hg : ∀ a ∈ as, ∀ t, G t a) (h : M.replay s as = some t) :
    M.Run G s as t := by
  induction as generalizing s with
  | nil => simp only [replay, Option.some.injEq] at h; subst h; exact .nil
  | cons a as ih =>
    simp only [replay] at h
    split at h
    · rename_i v hv
      exact .cons (hg a (by simp) s) hv (ih (fun b hb => hg b (by simp [hb])) h)
    · simp at h

theorem free_of_replay (h : M.replay s as = some t) : M.Run Free s as t :=
  run_of_replay (fun _ _ _ => trivial) h

end Machine
end GuardedRuns

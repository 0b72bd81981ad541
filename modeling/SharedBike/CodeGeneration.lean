import SharedBike.SequentialLogins

/-!
# Codes and the clock

`code_gen` seeds the generator with the clock before each draw, so a code is
the first number after its seed. The generator is arbitrary: what it yields is a
function of the last seed and of the number of draws since. Two requests in the
same second draw the same number, whatever the generator.
-/

set_option autoImplicit false

namespace SharedBike.CodeGeneration
open LittleEndian GuardedRuns
open SharedBike.Globals SharedBike.Events SharedBike.UserService
open SharedBike.UserEventHandler (CodeMap Environment verify)
open SharedBike.CallHistory SharedBike.SequentialLogins

def randMax : ℕ := 2^31-1

structure Generator where
  output : ℕ → ℕ → ℕ
  bounded : ∀ seed position, output seed position ≤ randMax

/-- The hidden state of `rand`; `drawn` is a ghost, the pairs that the draws came from. -/
structure Rand where
  seed : ℕ
  position : ℕ
  drawn : List (ℕ × ℕ)

/-- Before the first `srand` the seed is 1. -/
def Rand.start : Rand := ⟨1, 0, []⟩

def srand (st : Rand) (seed : ℕ) : Rand := { st with seed := seed, position := 0 }

def rand (gen : Generator) (st : Rand) : ℕ × Rand :=
  (gen.output st.seed st.position,
    { st with position := st.position+1, drawn := st.drawn++[(st.seed, st.position)] })

/-- The reading of the clock, cast to `unsigned int`. -/
def unsignedInt (now : ℤ) : ℕ := (now%2^32).toNat

def codeOf (r : ℕ) : Int32 := Int32.ofNat (r%(999999-100000)+100000)

def codeGen (gen : Generator) (now : ℤ) (st : Rand) : Int32 × Rand :=
  (codeOf (rand gen (srand st (unsignedInt now))).1, (rand gen (srand st (unsignedInt now))).2)

structure CodeRequest where
  mobile : Bytes
  now : ℤ
  deriving DecidableEq, Repr

/-- The handler with the generator that it draws from; `issued` is a ghost. -/
structure State where
  rand : Rand
  ledger : Ledger
  issued : List (Bytes × Int32)

def State.start (table : UserInfo) : State := ⟨Rand.start, Ledger.start table, []⟩

/-- What the handler finds in a code request: the generated code, and no database. -/
def generated (icode : Int32) : Environment := ⟨icode, false, .noResult, false⟩

/-- One code request, served to its end. -/
def issue (gen : Generator) (s : State) (q : CodeRequest) : State :=
  let code := codeGen gen q.now s.rand
  let out := handleMobileCodeReq s.ledger.m2c s.ledger.table (generated code.1) q.mobile
  { rand := code.2
    ledger := ⟨out.m2c, out.table, s.ledger.done++[⟨⟨.mobileCode q.mobile, generated code.1⟩,
      s.ledger.m2c, s.ledger.table, out.rsp, out.table⟩]⟩
    issued := s.issued++[(q.mobile, code.1)] }

def serve (gen : Generator) (table : UserInfo) (reqs : List CodeRequest) : State :=
  reqs.foldl (issue gen) (State.start table)

/-- The code of a request, as the generator decides it. -/
def codeFor (gen : Generator) (q : CodeRequest) : Int32 :=
  codeOf (gen.output (unsignedInt q.now) 0)

variable {gen : Generator} {table : UserInfo} {reqs : List CodeRequest}

theorem serve_snoc (gen : Generator) (table : UserInfo) (reqs : List CodeRequest)
    (q : CodeRequest) : serve gen table (reqs++[q]) = issue gen (serve gen table reqs) q := by
  rw [serve, List.foldl_append]
  rfl

theorem code_gen_fst (gen : Generator) (q : CodeRequest) (st : Rand) :
    (codeGen gen q.now st).1 = codeFor gen q := rfl

theorem code_gen_drawn (gen : Generator) (now : ℤ) (st : Rand) :
    (codeGen gen now st).2.drawn = st.drawn++[(unsignedInt now, 0)] := rfl

/-- Each draw is the first one after its seed. -/
theorem serve_drawn (gen : Generator) (table : UserInfo) (reqs : List CodeRequest) :
    (serve gen table reqs).rand.drawn = reqs.map fun q => (unsignedInt q.now, 0) := by
  induction reqs using List.reverseRecOn with
  | nil => rfl
  | append_singleton reqs q ih =>
    rw [serve_snoc, issue, code_gen_drawn, ih, List.map_append]
    rfl

theorem serve_issued (gen : Generator) (table : UserInfo) (reqs : List CodeRequest) :
    (serve gen table reqs).issued = reqs.map fun q => (q.mobile, codeFor gen q) := by
  induction reqs using List.reverseRecOn with
  | nil => rfl
  | append_singleton reqs q ih =>
    rw [serve_snoc, issue, code_gen_fst, ih, List.map_append]
    rfl

/-- A mobile holds the code of its last request. -/
theorem serve_m2c (gen : Generator) (table : UserInfo) (reqs : List CodeRequest) (m : Bytes) :
    (serve gen table reqs).ledger.m2c m =
      (reqs.filter fun q => q.mobile = m).getLast?.map (codeFor gen) := by
  induction reqs using List.reverseRecOn with
  | nil => rfl
  | append_singleton reqs q ih =>
    rw [serve_snoc, List.filter_append, List.filter_singleton]
    show Function.update (serve gen table reqs).ledger.m2c q.mobile _ m = _
    by_cases hm : m = q.mobile
    · subst hm
      rw [Function.update_self]
      simp [generated, code_gen_fst]
    · rw [Function.update_of_ne hm, ih]
      simp [Ne.symm hm]

/-- One request is one step of the sequential handler. -/
theorem issue_next (gen : Generator) (s : State) (q : CodeRequest) :
    SequentialLogins.machine.Next s.ledger ⟨.mobileCode q.mobile, generated (codeFor gen q)⟩
      (issue gen s q).ledger := by
  rw [Machine.Next]
  rfl

theorem serve_run (gen : Generator) (table : UserInfo) (reqs : List CodeRequest) :
    ∃ as, SequentialLogins.machine.Run Machine.Free (Ledger.start table) as
      (serve gen table reqs).ledger := by
  induction reqs using List.reverseRecOn with
  | nil => exact ⟨[],.nil⟩
  | append_singleton reqs q ih =>
    obtain ⟨as,hrun⟩ := ih
    rw [serve_snoc]
    exact ⟨_,hrun.snoc trivial (issue_next gen _ q)⟩

/-- The served requests are calls of the handler's machine, each returned before
the next begins. -/
theorem serve_refines (gen : Generator) (table : UserInfo) (reqs : List CodeRequest) :
    ∃ as t, UserEventHandler.machine.Run Machine.Free (UserEventHandler.State.start table) as t ∧
      Settled (serve gen table reqs).ledger t := by
  obtain ⟨as,hrun⟩ := serve_run gen table reqs
  exact ledger_refines hrun

/-- No two draws come from the same pair. So under some generator the codes of two
mobiles differ, and under some generator the code that one mobile was sent does
not pass a login of another. -/
structure Uncoupled (table : UserInfo) (reqs : List CodeRequest) : Prop where
  apart : ∀ gen, (serve gen table reqs).rand.drawn.Nodup
  unbound : ∀ (i j : ℕ) (a b : CodeRequest), reqs[i]? = some a → reqs[j]? = some b →
    a.mobile ≠ b.mobile → ∃ gen c d, (serve gen table reqs).issued[i]? = some (a.mobile, c) ∧
      (serve gen table reqs).issued[j]? = some (b.mobile, d) ∧ c ≠ d
  unusable : ∀ (i : ℕ) (a : CodeRequest) (m : Bytes), reqs[i]? = some a → m ≠ a.mobile →
    ∃ gen c, (serve gen table reqs).issued[i]? = some (a.mobile, c) ∧ ∀ env,
      handleLoginReq (serve gen table reqs).ledger.m2c (serve gen table reqs).ledger.table env m c =
        .ok ⟨loginRspEv EErrorCode.invalidData.code, (serve gen table reqs).ledger.m2c,
          (serve gen table reqs).ledger.table⟩

def seeds (reqs : List CodeRequest) : List ℕ := reqs.map fun q => unsignedInt q.now

/-- One number after the one seed, and another after every other. -/
def splitting (seed : ℕ) : Generator where
  output s _ := if s = seed then 0 else 1
  bounded s _ := by
    split <;> decide

theorem splitting_codes {a b : CodeRequest} (h : unsignedInt a.now ≠ unsignedInt b.now) :
    codeFor (splitting (unsignedInt a.now)) a ≠ codeFor (splitting (unsignedInt a.now)) b := by
  simp only [codeFor, splitting, if_true, if_neg (Ne.symm h)]
  decide

theorem issued_at {i : ℕ} {a : CodeRequest} (h : reqs[i]? = some a) :
    (serve gen table reqs).issued[i]? = some (a.mobile, codeFor gen a) := by
  rw [serve_issued, List.getElem?_map, h]
  rfl

/-- Requests at two places of a run with distinct seeds have different seeds. -/
theorem seeds_differ (h : (seeds reqs).Nodup) {i j : ℕ} {a b : CodeRequest}
    (ha : reqs[i]? = some a) (hb : reqs[j]? = some b) (hm : a.mobile ≠ b.mobile) :
    unsignedInt a.now ≠ unsignedInt b.now := by
  intro he
  have hi : (seeds reqs)[i]? = some (unsignedInt a.now) := by rw [seeds, List.getElem?_map, ha]; rfl
  have hj : (seeds reqs)[j]? = some (unsignedInt b.now) := by rw [seeds, List.getElem?_map, hb]; rfl
  have hlt : i < (seeds reqs).length := (List.getElem?_eq_some_iff.mp hi).1
  obtain rfl := (List.getElem?_inj hlt h).mp (hi.trans (by rw [hj, he]))
  rw [Option.some.inj (ha.symm.trans hb)] at hm
  exact hm rfl

theorem login_unverified {m2c : CodeMap} {m : Bytes} {c : Int32} (h : verify m2c m c ≠ none)
    (env : Environment) : handleLoginReq m2c table env m c =
      .ok ⟨loginRspEv EErrorCode.invalidData.code, m2c, table⟩ := by
  obtain ⟨rsp,hv⟩ := Option.ne_none_iff_exists'.mp h
  rw [handleLoginReq, hv, verify_some hv]

theorem verify_other {m2c : CodeMap} {m : Bytes} {c : Int32} (h : m2c m ≠ some c) :
    verify m2c m c ≠ none := by
  unfold verify
  split
  · rename_i stored hs
    rw [if_pos (fun hc => h (by rw [hs, hc]))]
    simp
  · simp

theorem drawn_nodup (gen : Generator) (table : UserInfo) (reqs : List CodeRequest) :
    (serve gen table reqs).rand.drawn.Nodup ↔ (seeds reqs).Nodup := by
  have hmap : (reqs.map fun q => (unsignedInt q.now, 0)) = (seeds reqs).map fun s => (s, 0) := by
    simp [seeds]
  rw [serve_drawn, hmap, List.nodup_map_iff]
  intro s t hst
  exact (Prod.mk.inj hst).1

theorem uncoupled_of_seeds (h : (seeds reqs).Nodup) : Uncoupled table reqs := by
  refine ⟨fun gen => (drawn_nodup gen table reqs).mpr h,fun i j a b ha hb hm => ?_,
    fun i a m ha hm => ?_⟩
  · exact ⟨splitting (unsignedInt a.now),_,_,issued_at ha,issued_at hb,
      splitting_codes (seeds_differ h ha hb hm)⟩
  · refine ⟨splitting (unsignedInt a.now),_,issued_at ha,login_unverified (verify_other ?_)⟩
    rw [serve_m2c]
    intro hsome
    -- the mobile holds the code of a request of its own, which has another seed
    obtain ⟨b,hlast,hcode⟩ := Option.map_eq_some_iff.mp hsome
    obtain ⟨hb,hbm⟩ := List.mem_filter.mp (List.mem_of_getLast? hlast)
    obtain ⟨j,hj⟩ := List.mem_iff_getElem?.mp hb
    have hne : a.mobile ≠ b.mobile := by
      rw [of_decide_eq_true hbm]
      exact Ne.symm hm
    exact splitting_codes (seeds_differ h ha hj hne) hcode.symm

/-- At every point of a run the codes do not determine one another exactly if no
two requests read the same clock value, as an `unsigned int`. -/
theorem uncoupled_iff (table : UserInfo) (reqs : List CodeRequest) :
    (∀ bs, bs <+: reqs → Uncoupled table bs) ↔ (seeds reqs).Nodup := by
  constructor
  · intro h
    exact (drawn_nodup (splitting 0) table reqs).mp ((h reqs List.prefix_rfl).apart _)
  · intro h bs hb
    exact uncoupled_of_seeds (h.sublist (hb.sublist.map _))

/-- Two mobiles ask for a code in the same second. -/
def sameSecond : List CodeRequest := [⟨[49], 1700000000⟩, ⟨[50], 1700000000⟩]

theorem same_second_coupled :
    (sameSecond.map CodeRequest.now).Pairwise (· ≤ ·) ∧
    (∀ gen, ∃ c out, (serve gen [] sameSecond).issued = [([49], c), ([50], c)] ∧
      handleLoginReq (serve gen [] sameSecond).ledger.m2c (serve gen [] sameSecond).ledger.table
        ⟨0, true, .rows, true⟩ [50] c = .ok out ∧ out.rsp = loginRspEv EErrorCode.success.code) ∧
    ¬ Uncoupled [] sameSecond := by
  refine ⟨by decide,fun gen => ?_,fun h => ?_⟩
  · refine ⟨codeFor gen ⟨[49], 1700000000⟩,⟨loginRspEv EErrorCode.success.code,
      (serve gen [] sameSecond).ledger.m2c,[[50]]⟩,serve_issued gen [] sameSecond,?_,rfl⟩
    have hv : verify (serve gen [] sameSecond).ledger.m2c [50]
        (codeFor gen ⟨[49], 1700000000⟩) = none := by
      unfold verify
      rw [serve_m2c]
      exact if_neg fun hne => hne rfl
    have hexist : exist [] .rows [50] = .ok false := by decide +kernel
    have hinsert : insert [] true [50] = .ok (true, [[50]]) := by decide +kernel
    have htable : (serve gen [] sameSecond).ledger.table = [] := rfl
    rw [htable, handleLoginReq, hv]
    simp only [if_true, hexist, hinsert]
  · have hn := (drawn_nodup (splitting 0) [] sameSecond).mp (h.apart _)
    revert hn
    decide

end SharedBike.CodeGeneration

import SharedBike.SessionMemory
import SharedBike.Library.Ownership

/-!
# The network thread keeps its memory

Every buffer and every buffered socket belongs to one session, and the
callbacks do in memory what they do to the values: on an open session they
follow no pointer to what was deleted, delete nothing twice, leave nothing behind
and have no fault that the values do not show.
-/

set_option autoImplicit false

namespace SharedBike.SessionOwnership
open LittleEndian Ownership
open SharedBike.Globals SharedBike.BikeProtocol SharedBike.Events SharedBike.DispatchMsgService
open SharedBike.NetworkInterface (ConnectSession responseFrame)
open SharedBike.SessionMemory

def charRefs (cs : Session) : List Addr := cs.readBuf.toList++cs.writeBuf.toList

def bevRefs (cs : Session) : List Addr := [cs.bev]

/-- The session with its buffers in place of the pointers to them. -/
def valueOf (chars : Addr → Option Bytes) (cs : Session) : ConnectSession where
  sessionStat := cs.sessionStat
  request := cs.request
  reqStat := cs.reqStat
  response := cs.response
  eid := cs.eid
  msgLen := cs.msgLen
  readMsgLen := cs.readMsgLen
  readBuf := cs.readBuf.bind chars
  header := cs.header
  readHeaderLen := cs.readHeaderLen
  writeBuf := cs.writeBuf.bind chars

/-- The open session at an address, with the input buffer of its socket. -/
def conn (m : Memory) (a : Addr) : Option (ConnectSession × Bytes) :=
  (m.sessions a).bind fun cs => (m.bevs cs.bev).map fun input => (valueOf m.chars cs, input)

structure Good (m : Memory) : Prop where
  chars : Exact charRefs m.sessions m.chars
  bevs : Exact bevRefs m.sessions m.bevs
  once : ∀ a cs, m.sessions a = some cs → (charRefs cs).Nodup
  bounded : m.Bounded

/-- One session becomes `c`, and every other session is as it was. -/
structure Moves (a : Addr) (m n : Memory) (c : Option (ConnectSession × Bytes)) : Prop where
  good : Good n
  here : conn n a = c
  frame : ∀ b, b ≠ a → conn n b = conn m b

theorem Moves.trans {a : Addr} {m n k : Memory} {c d : Option (ConnectSession × Bytes)}
    (h : Moves a m n c) (h' : Moves a n k d) : Moves a m k d :=
  ⟨h'.good,h'.here,fun b hb => (h'.frame b hb).trans (h.frame b hb)⟩

theorem empty_good : Good Memory.empty :=
  ⟨exact_empty,exact_empty,fun _ _ h => by simp [Memory.empty] at h,0,fun _ _ => ⟨rfl,rfl⟩⟩

theorem conn_some {m : Memory} {a : Addr} {v : ConnectSession} {input : Bytes}
    (h : conn m a = some (v, input)) :
    ∃ cs, m.sessions a = some cs ∧ m.bevs cs.bev = some input ∧ v = valueOf m.chars cs := by
  obtain ⟨cs,hs,hm⟩ := Option.bind_eq_some_iff.mp h
  obtain ⟨i,hi,he⟩ := Option.map_eq_some_iff.mp hm
  obtain ⟨rfl,rfl⟩ := Prod.mk.inj he
  exact ⟨cs,hs,hi,rfl⟩

theorem value_congr {chars chars' : Addr → Option Bytes} {cs : Session}
    (h : ∀ x ∈ charRefs cs, chars' x = chars x) : valueOf chars' cs = valueOf chars cs := by
  have hbind : ∀ o : Option Addr, (∀ x ∈ o.toList, x ∈ charRefs cs) →
      o.bind chars' = o.bind chars := by
    intro o ho
    cases o with
    | none => rfl
    | some x => exact h x (ho x (by simp))
  unfold valueOf
  rw [hbind cs.readBuf fun x hx => List.mem_append_left _ hx,
    hbind cs.writeBuf fun x hx => List.mem_append_right _ hx]

/-- The rule for every change of one session with its buffers and its socket. -/
theorem replace_moves {m : Memory} {a : Addr} {o : Option Session}
    {chars bevs : Addr → Option Bytes} (hg : Good m)
    (hc : Replaces charRefs m.chars chars (m.sessions a) o)
    (hb : Replaces bevRefs m.bevs bevs (m.sessions a) o)
    (honce : ∀ cs, o = some cs → (charRefs cs).Nodup)
    (hbound : Memory.Bounded ⟨Function.update m.sessions a o, chars, bevs⟩) :
    Moves a m ⟨Function.update m.sessions a o, chars, bevs⟩
      (o.bind fun cs => (bevs cs.bev).map fun input => (valueOf chars cs, input)) where
  good := by
    refine ⟨hg.chars.replace hc,hg.bevs.replace hb,fun b cs h => ?_,hbound⟩
    by_cases hba : b = a
    · subst hba
      exact honce cs (by simpa using h)
    · exact hg.once b cs (by simpa [Function.update_of_ne hba] using h)
  here := by simp [conn]
  frame b hba := by
    simp only [conn, Function.update_of_ne hba]
    cases hs : m.sessions b with
    | none => rfl
    | some cs =>
      simp only [Option.bind_some]
      rw [hg.bevs.frame hb hs hba (List.mem_singleton.mpr rfl),
        value_congr fun x hx => hg.chars.frame hc hs hba hx]

theorem bounded_of {m : Memory} {sessions : Addr → Option Session}
    {chars bevs : Addr → Option Bytes} (h : m.Bounded) (q : Addr)
    (hc : ∀ p, p ≠ q → m.chars p = none → chars p = none)
    (hb : ∀ p, p ≠ q → m.bevs p = none → bevs p = none) :
    Memory.Bounded ⟨sessions, chars, bevs⟩ := by
  obtain ⟨n,hn⟩ := h
  refine ⟨max n (q+1),fun p hp => ?_⟩
  have hne : p ≠ q := Nat.ne_of_gt ((le_max_right n (q+1)).trans hp)
  obtain ⟨h1,h2⟩ := hn p ((le_max_left n (q+1)).trans hp)
  exact ⟨hc p hne h1,hb p hne h2⟩

theorem session_ok {m : Memory} {a : Addr} {cs : Session} (h : m.sessions a = some cs) :
    m.session a = .ok cs := by
  rw [Memory.session, h]

theorem text_ok {m : Memory} {p : Addr} {buf : Bytes} (h : m.chars p = some buf) :
    m.text p = .ok buf := by
  rw [Memory.text, h]

theorem input_ok {m : Memory} {b : Addr} {input : Bytes} (h : m.bevs b = some input) :
    m.input b = .ok input := by
  rw [Memory.input, h]

theorem follow_ok {o : Option Addr} {q : Addr} (h : o = some q) : follow o = .ok q := by
  rw [h, follow]

theorem bind_ok {α β : Type} {x : Except Fault α} {v : α} {f : α → Except Fault β}
    (h : x = .ok v) : x.bind f = f v := by
  rw [h]
  rfl

theorem bind_error {α β : Type} {x : Except Fault α} {e : Fault} {f : α → Except Fault β}
    (h : x = .error e) : x.bind f = .error e := by
  rw [h]
  rfl

section Changes

variable {m : Memory} {a : Addr} {cs cs' : Session} {v : ConnectSession} {input : Bytes}

/-- The pointers stay, and what they lead to changes. -/
theorem kept_moves {chars : Addr → Option Bytes} (hg : Good m) (hs : m.sessions a = some cs)
    (hr : cs'.readBuf = cs.readBuf) (hw : cs'.writeBuf = cs.writeBuf) (hb : cs'.bev = cs.bev)
    (live : ∀ x ∈ charRefs cs, (chars x).isSome)
    (others : ∀ x, x ∉ charRefs cs → chars x = m.chars x) (rest : Bytes) :
    Moves a m (({ m with chars := chars }.setInput cs.bev (some rest)).setSession a cs')
      (some (valueOf chars cs', rest)) := by
  have hrefs : charRefs cs' = charRefs cs := by rw [charRefs, charRefs, hr, hw]
  have hmoves := @replace_moves m a (some cs') chars (Function.update m.bevs cs.bev (some rest))
    hg ?_ ?_ ?_ ?_
  · simp only [Option.bind_some, hb, Function.update_self, Option.map_some] at hmoves
    exact hmoves
  · rw [hs]
    exact replaces_kept hrefs live others
  · rw [hs]
    refine replaces_kept (by rw [bevRefs, bevRefs, hb]) (fun x hx => ?_) fun x hx => ?_
    · simp [List.mem_singleton.mp hx]
    · exact Function.update_of_ne (fun h => hx (List.mem_singleton.mpr h)) _ _
  · rintro _ ⟨⟩
    rw [hrefs]
    exact hg.once a cs hs
  · refine bounded_of hg.bounded cs.bev (fun p _ h => ?_) fun p hp h => ?_
    · refine (others p fun hm => ?_).trans h
      have hlive := hg.chars.live a cs p hs hm
      simp [h] at hlive
    · rwa [Function.update_of_ne hp]

/-- Fields that are no pointers change, and the socket's buffer. -/
theorem edit_moves (hg : Good m) (hs : m.sessions a = some cs) (hr : cs'.readBuf = cs.readBuf)
    (hw : cs'.writeBuf = cs.writeBuf) (hb : cs'.bev = cs.bev) (rest : Bytes) :
    Moves a m ((m.setSession a cs').setInput cs.bev (some rest))
      (some (valueOf m.chars cs', rest)) :=
  kept_moves hg hs hr hw hb (fun x hx => hg.chars.live a cs x hs hx) (fun _ _ => rfl) rest

/-- The same without the socket's buffer. -/
theorem set_moves (hg : Good m) (hs : m.sessions a = some cs)
    (hi : m.bevs cs.bev = some input) (hr : cs'.readBuf = cs.readBuf)
    (hw : cs'.writeBuf = cs.writeBuf) (hb : cs'.bev = cs.bev) :
    Moves a m (m.setSession a cs') (some (valueOf m.chars cs', input)) := by
  have h := edit_moves hg hs hr hw hb input
  have hsame : (m.setSession a cs').setInput cs.bev (some input) = m.setSession a cs' := by
    rw [Memory.setInput, ← hi]
    exact congrArg (fun bevs => (⟨_, _, bevs⟩ : Memory)) (Function.update_eq_self _ _)
  rwa [hsame] at h

/-- A new buffer that the session did not have. -/
theorem made_moves {p : Addr} {buf : Bytes} (hg : Good m) (hs : m.sessions a = some cs)
    (hi : m.bevs cs.bev = some input) (hfree : m.chars p = none)
    (hrefs : ∀ x, x ∈ charRefs cs' ↔ x = p ∨ x ∈ charRefs cs) (honce : (charRefs cs').Nodup)
    (hb : cs'.bev = cs.bev) :
    Moves a m ((m.setChars p (some buf)).setSession a cs')
      (some (valueOf (Function.update m.chars p (some buf)) cs', input)) := by
  have hmoves := @replace_moves m a (some cs') (Function.update m.chars p (some buf)) m.bevs hg
    ?_ ?_ ?_ ?_
  · simp only [Option.bind_some, hb, hi, Option.map_some] at hmoves
    exact hmoves
  · rw [hs]
    exact replaces_made hrefs hfree fun x hx => hg.chars.live a cs x hs hx
  · rw [hs]
    exact replaces_kept (by rw [bevRefs, bevRefs, hb])
      (fun x hx => hg.bevs.live a cs x hs hx) fun _ _ => rfl
  · rintro _ ⟨⟩
    exact honce
  · refine bounded_of hg.bounded p (fun x hx h => ?_) fun _ _ h => h
    rwa [Function.update_of_ne hx]

/-- Deleting both buffers of a session faults nowhere and clears just these. -/
theorem delete_both (live : ∀ x ∈ charRefs cs, (m.chars x).isSome) (honce : (charRefs cs).Nodup) :
    ∃ chars, (∀ x ∈ charRefs cs, chars x = none) ∧ (∀ x, x ∉ charRefs cs → chars x = m.chars x) ∧
      ∀ {β : Type} (f : Memory → β), ((m.deleteChars cs.readBuf).bind fun m =>
        (m.deleteChars cs.writeBuf).map f) = .ok (f { m with chars := chars }) := by
  have hlive := fun x hx => Option.isSome_iff_exists.mp (live x hx)
  unfold charRefs at hlive honce ⊢
  cases hr : cs.readBuf with
  | none =>
    cases hw : cs.writeBuf with
    | none => exact ⟨m.chars,by simp,by simp,fun f => rfl⟩
    | some q =>
      obtain ⟨buf,hq⟩ := hlive q (by simp [hw])
      refine ⟨Function.update m.chars q none,by simp,fun x hx => ?_,fun f => ?_⟩
      · exact Function.update_of_ne (by simpa using hx) _ _
      · simp [Memory.deleteChars, Except.bind, text_ok hq, Except.map, Memory.setChars]
  | some p =>
    obtain ⟨buf,hp⟩ := hlive p (by simp [hr])
    cases hw : cs.writeBuf with
    | none =>
      refine ⟨Function.update m.chars p none,by simp,fun x hx => ?_,fun f => ?_⟩
      · exact Function.update_of_ne (by simpa using hx) _ _
      · simp [Memory.deleteChars, Except.bind, text_ok hp, Except.map, Memory.setChars]
    | some q =>
      have hne : q ≠ p := by
        rintro rfl
        simp [hr, hw] at honce
      obtain ⟨buf',hq⟩ := hlive q (by simp [hw])
      refine ⟨Function.update (Function.update m.chars p none) q none,fun x hx => ?_,
        fun x hx => ?_,fun f => ?_⟩
      · by_cases hxq : x = q
        · simp [hxq]
        · rw [Function.update_of_ne hxq]
          have hxp : x = p := by simpa [hxq] using hx
          simp [hxp]
      · have hx' : x ≠ p ∧ x ≠ q := by simpa using hx
        rw [Function.update_of_ne hx'.2, Function.update_of_ne hx'.1]
      · have hq' : (m.setChars p none).chars q = some buf' := by
          simp [Memory.setChars, Function.update_of_ne hne, hq]
        simp only [Memory.deleteChars, Except.bind, text_ok hp, Except.map, text_ok hq']
        rfl

/-- The body part stores what it read into the session's buffer. -/
theorem store_moves {q : Addr} {buf : Bytes} (hg : Good m) (hs : m.sessions a = some cs)
    (hq : cs.readBuf = some q) (hr : cs'.readBuf = cs.readBuf) (hw : cs'.writeBuf = cs.writeBuf)
    (hb : cs'.bev = cs.bev) (rest : Bytes) :
    Moves a m (((m.setChars q (some buf)).setInput cs.bev (some rest)).setSession a cs')
      (some (valueOf (Function.update m.chars q (some buf)) cs', rest)) := by
  have hmem : q ∈ charRefs cs := by simp [charRefs, hq]
  refine kept_moves hg hs hr hw hb (fun x hx => ?_) (fun x hx => ?_) rest
  · by_cases hxq : x = q
    · simp [hxq]
    · rw [Function.update_of_ne hxq]
      exact hg.chars.live a cs x hs hx
  · exact Function.update_of_ne (fun h => hx (by rw [h]; exact hmem)) _ _

/-- The session gives up some of its buffers, which are deleted. -/
theorem freed_moves {chars : Addr → Option Bytes} (hg : Good m) (hs : m.sessions a = some cs)
    (hi : m.bevs cs.bev = some input) (hb : cs'.bev = cs.bev)
    (hsub : (charRefs cs').Sublist (charRefs cs))
    (kept : ∀ x ∈ charRefs cs', chars x = m.chars x)
    (freed : ∀ x ∈ charRefs cs, x ∉ charRefs cs' → chars x = none)
    (others : ∀ x, x ∉ charRefs cs → chars x = m.chars x) :
    Moves a m ({ m with chars := chars }.setSession a cs') (some (valueOf chars cs', input)) := by
  have hmoves := @replace_moves m a (some cs') chars m.bevs hg ?_ ?_ ?_ ?_
  · simp only [Option.bind_some, hb, hi, Option.map_some] at hmoves
    exact hmoves
  · rw [hs]
    exact replaces_freed (fun y _ hy => kept y hy) (fun y hy => hsub.subset hy)
      (fun x hx => hg.chars.live a cs x hs hx) freed others
  · rw [hs]
    exact replaces_kept (by rw [bevRefs, bevRefs, hb])
      (fun x hx => hg.bevs.live a cs x hs hx) fun _ _ => rfl
  · rintro _ ⟨⟩
    exact (hg.once a cs hs).sublist hsub
  · refine bounded_of hg.bounded 0 (fun p _ h => ?_) fun _ _ h => h
    by_cases hp : p ∈ charRefs cs
    · by_cases hp' : p ∈ charRefs cs'
      · exact (kept p hp').trans h
      · exact freed p hp hp'
    · exact (others p hp).trans h

theorem close_moves (hg : Good m) (hc : conn m a = some (v, input)) :
    ∃ n, closeSession m a = .ok n ∧ Moves a m n none := by
  obtain ⟨cs,hs,hi,-⟩ := conn_some hc
  obtain ⟨chars,hcleared,hothers,hdel⟩ := @delete_both (m.setInput cs.bev none) cs
    (fun x hx => hg.chars.live a cs x hs hx) (hg.once a cs hs)
  refine ⟨⟨Function.update m.sessions a none, chars, Function.update m.bevs cs.bev none⟩,?_,?_⟩
  · have hs' : (m.setInput cs.bev none).sessions a = some cs := hs
    simp only [closeSession, session_ok hs, Except.bind, Memory.freeBev, input_ok hi, Except.map,
      sessionFree, session_ok hs']
    exact hdel _
  · have hmoves := @replace_moves m a none chars (Function.update m.bevs cs.bev none) hg ?_ ?_
      (fun _ h => by simp at h) ?_
    · exact hmoves
    · rw [hs]
      exact replaces_last hcleared hothers
    · rw [hs]
      refine replaces_last (fun x hx => ?_) fun x hx => ?_
      · simp [List.mem_singleton.mp hx]
      · exact Function.update_of_ne (fun h => hx (List.mem_singleton.mpr h)) _ _
    · refine bounded_of hg.bounded cs.bev (fun p _ h => ?_) fun p hp h => ?_
      · by_cases hp : p ∈ charRefs cs
        · exact hcleared p hp
        · exact (hothers p hp).trans h
      · rwa [Function.update_of_ne hp]

theorem reset_moves (hg : Good m) (hc : conn m a = some (v, input)) :
    ∃ n, sessionReset m a = .ok n ∧
      Moves a m n (some (NetworkInterface.sessionReset v, input)) := by
  obtain ⟨cs,hs,hi,rfl⟩ := conn_some hc
  obtain ⟨chars,hcleared,hothers,hdel⟩ := @delete_both m cs
    (fun x hx => hg.chars.live a cs x hs hx) (hg.once a cs hs)
  refine ⟨_,?_,@freed_moves m a cs { cs with
    readBuf := none
    writeBuf := none
    sessionStat := .ssRequest
    reqStat := .msReadHeader
    msgLen := 0
    readMsgLen := 0
    readHeaderLen := 0 } input chars hg hs hi rfl (List.nil_sublist _) (by simp [charRefs])
    (fun x hx _ => hcleared x hx) hothers⟩
  simp only [sessionReset, session_ok hs, Except.bind]
  exact hdel _

end Changes

theorem bind_update {chars : Addr → Option Bytes} {o : Option Addr} {p : Addr} {x : Option Bytes}
    (h : ∀ q, o = some q → q ≠ p) : o.bind (Function.update chars p x) = o.bind chars := by
  cases o with
  | none => rfl
  | some q => exact Function.update_of_ne (h q rfl) _ _

section Stages

variable {m : Memory} {a p : Addr} {v v' : ConnectSession} {input input' : Bytes}

/-- The sizes are variables here: the kernel would compute with machine integers. -/
theorem header_stored {header got : Bytes} {off len : ℕ} {α β : Type} {done : Bytes → α}
    {made : Bytes → β} {f : Fault} (h : (match storeAt header off got with
      | .error f => .error f
      | .ok header => match storeAt header len [0] with
        | .error f => .error f
        | .ok header => .ok (done header) : Except Fault α) = .error f) :
    ((storeAt header off got).bind fun header => (storeAt header len [0]).map made) =
      .error f := by
  cases h1 : storeAt header off got with
  | error e =>
    rw [h1] at h
    obtain rfl := Except.error.inj h
    rfl
  | ok header =>
    rw [h1] at h
    cases h2 : storeAt header len [0] with
    | error e =>
      simp only [h2, Except.error.injEq] at h
      rw [bind_ok rfl, h2, h]
      rfl
    | ok header => simp [h2] at h

theorem read_header_fails (hc : conn m a = some (v, input)) {f : Fault}
    (h : NetworkInterface.readHeader v input = .error f) : readHeader m a = .error f := by
  obtain ⟨cs,hs,hi,rfl⟩ := conn_some hc
  rw [readHeader, bind_ok (session_ok hs), bind_ok (input_ok hi)]
  rw [NetworkInterface.readHeader] at h
  exact header_stored h

theorem read_header_moves (hg : Good m) (hc : conn m a = some (v, input))
    (h : NetworkInterface.readHeader v input = .ok (v', input')) :
    ∃ n, readHeader m a = .ok n ∧ Moves a m n (some (v', input')) ∧ n.chars = m.chars := by
  obtain ⟨cs,hs,hi,rfl⟩ := conn_some hc
  unfold NetworkInterface.readHeader at h
  simp only at h
  split at h
  · simp at h
  · rename_i header h1
    split at h
    · simp at h
    · rename_i header' h2
      obtain ⟨rfl,rfl⟩ := Prod.mk.inj (Except.ok.inj h)
      refine ⟨_,?_,@edit_moves m a cs { cs with
        header := header'
        readHeaderLen := u32 (cs.readHeaderLen+
          (input.take (u32Sub NetworkInterface.messageHeaderLen cs.readHeaderLen)).length) }
        hg hs rfl rfl rfl _,rfl⟩
      have h1' : storeAt cs.header cs.readHeaderLen (input.take
        (u32Sub NetworkInterface.messageHeaderLen cs.readHeaderLen)) = .ok header := h1
      have h2' : storeAt header (u32 (cs.readHeaderLen+(input.take
        (u32Sub NetworkInterface.messageHeaderLen cs.readHeaderLen)).length)) [0] =
          .ok header' := h2
      simp only [readHeader, session_ok hs, Except.bind, input_ok hi, h1', h2', Except.map]
      rfl

theorem fresh_ref {cs : Session} (hg : Good m) (hs : m.sessions a = some cs)
    (hfree : m.chars p = none) : p ∉ charRefs cs := by
  intro hm
  have hlive := hg.chars.live a cs p hs hm
  simp [hfree] at hlive

theorem null_read {cs : Session} (hg : Good m) (hs : m.sessions a = some cs)
    (hno : (valueOf m.chars cs).readBuf = none) : cs.readBuf = none := by
  cases hr : cs.readBuf with
  | none => rfl
  | some q =>
    have hlive := hg.chars.live a cs q hs (by simp [charRefs, hr])
    have hq : m.chars q = none := by simpa [valueOf, hr] using hno
    simp [hq] at hlive

/-- The session goes on with new values, its connection has ended, or the same
fault is met. -/
def Continues (a : Addr) (m : Memory) (r : Except Fault Callback) :
    Except Fault (Option (ConnectSession × Bytes)) → Prop
  | .error f => r = .error f
  | .ok (some c) => ∃ n, r = .ok (.keep n) ∧ Moves a m n (some c)
  | .ok none => ∃ n, r = .ok (.free n) ∧ Moves a m n none

theorem Continues.after {n : Memory} {r : Except Fault Callback}
    {c : Except Fault (Option (ConnectSession × Bytes))} {d : Option (ConnectSession × Bytes)}
    (h : Moves a m n d) (hf : Continues a n r c) : Continues a m r c := by
  cases c with
  | error f => exact hf
  | ok c =>
    cases c with
    | some c => obtain ⟨k,hk,hm⟩ := hf; exact ⟨k,hk,h.trans hm⟩
    | none => obtain ⟨k,hk,hm⟩ := hf; exact ⟨k,hk,h.trans hm⟩

/-- A good header gets a buffer, and a bad one ends the connection. -/
theorem check_header_moves (hg : Good m) (hc : conn m a = some (v, input))
    (hno : v.readBuf = none) (hfree : m.chars p = none) :
    Continues a m (checkHeader m a p)
      (.ok ((NetworkInterface.checkHeader v).map fun v => (v, input))) := by
  obtain ⟨cs,hs,hi,rfl⟩ := conn_some hc
  have hread := null_read hg hs hno
  have hp := fresh_ref hg hs hfree
  unfold NetworkInterface.checkHeader checkHeader
  simp only [session_ok hs, Except.bind]
  by_cases hmagic : cs.header.take 4 = NetworkInterface.messageHeader
  · rw [if_pos (show (valueOf m.chars cs).header.take 4 = _ from hmagic), if_pos hmagic]
    simp only [show (valueOf m.chars cs).header = cs.header from rfl]
    split_ifs with hbad
    · have hmoves := @set_moves m a cs { cs with
        eid := read ((cs.header.drop 4).take 2)
        msgLen := i32ToU32 (asI32 (read ((cs.header.drop 6).take 4))) } input hg hs hi rfl rfl rfl
      obtain ⟨n,hn,hclosed⟩ := close_moves hmoves.good hmoves.here
      exact ⟨n,congrArg (Except.map Callback.free) hn,hmoves.trans hclosed⟩
    · refine ⟨_,rfl,?_⟩
      have hmoves := @made_moves m a cs { cs with
        eid := read ((cs.header.drop 4).take 2)
        msgLen := i32ToU32 (asI32 (read ((cs.header.drop 6).take 4)))
        readBuf := some p
        reqStat := .msReadMessage
        readMsgLen := 0 } input p
        (List.replicate (i32ToU32 (asI32 (read ((cs.header.drop 6).take 4)))) 0)
        hg hs hi hfree (by simp [charRefs, hread]) ?_ rfl
      · convert hmoves using 3
        simp only [valueOf, Option.bind_some, Function.update_self, ConnectSession.mk.injEq,
          true_and]
        exact (bind_update fun q hq hqp => hp (by simp [charRefs, hq, hqp])).symm
      · have honce := hg.once a cs hs
        simp only [charRefs, hread, Option.toList_none, List.nil_append, Option.toList_some,
          List.singleton_append, List.nodup_cons] at honce hp ⊢
        exact ⟨hp,honce⟩
  · rw [if_neg (show ¬ (valueOf m.chars cs).header.take 4 = _ from hmagic), if_neg hmagic]
    obtain ⟨n,hn,hclosed⟩ := close_moves hg hc
    exact ⟨n,by rw [hn]; rfl,hclosed⟩

theorem header_phase_moves (hg : Good m) (hc : conn m a = some (v, input))
    (hno : v.reqStat = .msReadHeader → v.readBuf = none) (hfree : m.chars p = none) :
    Continues a m (headerPhase m a p) (NetworkInterface.headerPhase v input) := by
  obtain ⟨cs,hs,hi,hv⟩ := conn_some hc
  have hstat : v.reqStat = cs.reqStat := by rw [hv, valueOf]
  rw [headerPhase, bind_ok (session_ok hs), ← hstat, NetworkInterface.headerPhase]
  by_cases hst : v.reqStat = .msReadHeader
  · rw [if_pos hst, if_pos hst]
    cases hread : NetworkInterface.readHeader v input with
    | error f => exact bind_error (read_header_fails hc hread)
    | ok r =>
      obtain ⟨v1,input1⟩ := r
      obtain ⟨n,hn,hmoves,hchars⟩ := read_header_moves hg hc hread
      obtain ⟨cs1,hs1,hi1,hv1⟩ := conn_some hmoves.here
      have hbuf : v1.readBuf = none := by
        have hkeep : v1.readBuf = v.readBuf := by
          unfold NetworkInterface.readHeader at hread
          simp only at hread
          split at hread
          · simp at hread
          · split at hread
            · simp at hread
            · exact (congrArg (fun x => x.1.readBuf) (Except.ok.inj hread)).symm
        rw [hkeep]
        exact hno hst
      have hlen : v1.readHeaderLen = cs1.readHeaderLen := by rw [hv1, valueOf]
      rw [bind_ok hn, bind_ok (session_ok hs1), ← hlen]
      simp only
      split_ifs with hfull
      · exact (check_header_moves hmoves.good hmoves.here hbuf (hchars ▸ hfree)).after hmoves
      · exact ⟨n,rfl,hmoves⟩
  · rw [if_neg hst, if_neg hst]
    exact ⟨m,rfl,hg,hc,fun _ _ => rfl⟩

/-- What the value of a callback says of the memory that it leaves. -/
def Follows (a : Addr) (m : Memory) (r : Except Fault Callback) :
    Except Fault NetworkInterface.Callback → Prop
  | .error f => r = .error f
  | .ok (.keep v input) => ∃ n, r = .ok (.keep n) ∧ Moves a m n (some (v, input))
  | .ok (.enqueue v input _ ev) => ∃ n, r = .ok (.enqueue n ev) ∧ Moves a m n (some (v, input))
  | .ok (.free _) => ∃ n, r = .ok (.free n) ∧ Moves a m n none

theorem Follows.after {n : Memory} {r : Except Fault Callback}
    {c : Except Fault NetworkInterface.Callback} {d : Option (ConnectSession × Bytes)}
    (h : Moves a m n d) (hf : Follows a n r c) : Follows a m r c := by
  cases c with
  | error f => exact hf
  | ok c =>
    cases c with
    | keep v input => obtain ⟨k,hk,hm⟩ := hf; exact ⟨k,hk,h.trans hm⟩
    | enqueue v input call ev => obtain ⟨k,hk,hm⟩ := hf; exact ⟨k,hk,h.trans hm⟩
    | free call => obtain ⟨k,hk,hm⟩ := hf; exact ⟨k,hk,h.trans hm⟩

/-- The body part gives its buffer up. -/
theorem body_freed {cs : Session} {q : Addr} (hg : Good m) (hs : m.sessions a = some cs)
    (hi : m.bevs cs.bev = some input) (hq : cs.readBuf = some q) :
    Moves a m ((m.setChars q none).setSession a { cs with
        sessionStat := .ssResponse, readBuf := none, readMsgLen := 0 })
      (some ({ valueOf m.chars cs with
        sessionStat := .ssResponse, readBuf := none, readMsgLen := 0 }, input)) := by
  have honce := hg.once a cs hs
  simp only [charRefs, hq, Option.toList_some, List.singleton_append, List.nodup_cons] at honce
  have hmoves := @freed_moves m a cs { cs with
    sessionStat := .ssResponse, readBuf := none, readMsgLen := 0 } input
    (Function.update m.chars q none) hg hs hi rfl (List.sublist_append_right _ _)
    (fun x hx => ?_) (fun x hx hx' => ?_) (fun x hx => ?_)
  · have hwrite : cs.writeBuf.bind (Function.update m.chars q none) = cs.writeBuf.bind m.chars :=
      bind_update fun x hx hxq => honce.1 (by simp [hx, hxq])
    unfold valueOf at hmoves
    rw [hwrite] at hmoves
    exact hmoves
  · have hx : x ∈ cs.writeBuf.toList := hx
    exact Function.update_of_ne (fun h => honce.1 (by rw [← h]; exact hx)) _ _
  · have hxq : x = q := by
      simp only [charRefs, hq, Option.toList_none, Option.toList_some, List.nil_append,
        List.singleton_append, List.mem_cons] at hx hx'
      exact hx.resolve_right hx'
    simp [hxq]
  · exact Function.update_of_ne (fun h => hx (by simp [charRefs, hq, h])) _ _

/-- A complete message is parsed and its buffer is deleted, once. -/
theorem finish_message_follows {pb : Protobuf} (hg : Good m) {buf : Bytes} {len : ℕ}
    (hc : conn m a = some ({ v with readBuf := some buf, readMsgLen := len }, input)) :
    Follows a m (finishMessage pb m a)
      (NetworkInterface.finishMessage pb a v buf len input) := by
  obtain ⟨cs,hs,hi,hv⟩ := conn_some hc
  have hfields := congrArg (fun v : ConnectSession => (v.msgLen, v.readMsgLen, v.eid, v.readBuf)) hv
  simp only [valueOf, Prod.mk.injEq] at hfields
  obtain ⟨hmsg,hlen,heid,hbuf⟩ := hfields
  obtain ⟨q,hq,hqbuf⟩ := Option.bind_eq_some_iff.mp hbuf.symm
  unfold NetworkInterface.finishMessage
  rw [finishMessage, bind_ok (session_ok hs)]
  by_cases hdone : v.msgLen = len
  · have hparse : parseEvent pb (some buf) cs.readMsgLen cs.eid =
        parseEvent pb (some buf) len v.eid := by rw [← hlen, ← heid]
    rw [if_pos hdone, if_pos (by rw [← hmsg, ← hlen, hdone]), bind_ok (follow_ok hq),
      bind_ok (text_ok hqbuf), hparse]
    have hdel : m.deleteChars cs.readBuf = .ok (m.setChars q none) := by
      simp [hq, Memory.deleteChars, text_ok hqbuf, Except.map]
    have hmoves := body_freed hg hs hi hq
    rw [← hv] at hmoves
    cases hev : parseEvent pb (some buf) len v.eid with
    | error f => exact bind_error rfl
    | ok ev =>
      rw [bind_ok rfl, bind_ok hdel]
      cases ev with
      | some ev => exact ⟨_,rfl,hmoves⟩
      | none =>
        obtain ⟨n,hn,hclosed⟩ := close_moves hmoves.good hmoves.here
        exact ⟨n,congrArg (Except.map Callback.free) hn,hmoves.trans hclosed⟩
  · rw [if_neg hdone, if_neg (by rw [← hmsg, ← hlen]; exact hdone)]
    exact ⟨m,rfl,hg,hc,fun _ _ => rfl⟩

theorem read_message_eq {pb : Protobuf} {cs : Session} {q : Addr} {buf : Bytes}
    (hs : m.sessions a = some cs) (hi : m.bevs cs.bev = some input) (hq : cs.readBuf = some q)
    (hqbuf : m.chars q = some buf) :
    readMessage pb m a = (storeAt buf cs.readMsgLen
      (input.take (u32Sub cs.msgLen cs.readMsgLen))).bind fun buf' =>
        finishMessage pb (((m.setChars q (some buf')).setInput cs.bev
          (some (input.drop (u32Sub cs.msgLen cs.readMsgLen)))).setSession a { cs with
            readMsgLen := u32 (cs.readMsgLen+
              (input.take (u32Sub cs.msgLen cs.readMsgLen)).length) }) a := by
  rw [readMessage, bind_ok (session_ok hs), bind_ok (follow_ok hq), bind_ok (text_ok hqbuf),
    bind_ok (input_ok hi)]

/-- The sizes are variables here: the kernel would compute with machine integers. -/
theorem stored_follows {pb : Protobuf} {r : Except Fault Callback} {size len : ℕ}
    (h0 : v.readBuf = none → r = .error .nullPointer)
    (h1 : ∀ buf f, v.readBuf = some buf → storeAt buf v.readMsgLen (input.take size) = .error f →
      r = .error f)
    (h2 : ∀ buf buf', v.readBuf = some buf →
      storeAt buf v.readMsgLen (input.take size) = .ok buf' →
      Follows a m r (NetworkInterface.finishMessage pb a v buf' len (input.drop size))) :
    Follows a m r (match v.readBuf with
      | none => .error .nullPointer
      | some buf => match storeAt buf v.readMsgLen (input.take size) with
        | .error f => .error f
        | .ok buf => NetworkInterface.finishMessage pb a v buf len (input.drop size)) := by
  cases hb : v.readBuf with
  | none => exact h0 hb
  | some buf =>
    cases hstore : storeAt buf v.readMsgLen (input.take size) with
    | error f => simpa [hstore, Follows] using h1 buf f hb hstore
    | ok buf' => simpa [hstore] using h2 buf buf' hb hstore

theorem read_message_follows {pb : Protobuf} (hg : Good m) (hc : conn m a = some (v, input)) :
    Follows a m (readMessage pb m a) (NetworkInterface.readMessage pb a v input) := by
  obtain ⟨cs,hs,hi,hv⟩ := conn_some hc
  have hfields := congrArg (fun v : ConnectSession => (v.msgLen, v.readMsgLen, v.readBuf)) hv
  simp only [valueOf, Prod.mk.injEq] at hfields
  obtain ⟨hmsg,hlen,hbind⟩ := hfields
  rw [NetworkInterface.readMessage]
  apply stored_follows
  · intro hnone
    have hread := null_read hg hs (hv ▸ hnone)
    rw [readMessage, bind_ok (session_ok hs), bind_error (by rw [hread, follow])]
  · intro buf f hbuf hstore
    obtain ⟨q,hq,hqbuf⟩ := Option.bind_eq_some_iff.mp (hbind.symm.trans hbuf)
    rw [hmsg, hlen] at hstore
    rw [read_message_eq hs hi hq hqbuf]
    exact bind_error hstore
  · intro buf buf' hbuf hstore
    obtain ⟨q,hq,hqbuf⟩ := Option.bind_eq_some_iff.mp (hbind.symm.trans hbuf)
    have honce := hg.once a cs hs
    have hvalue : ∀ n, valueOf (Function.update m.chars q (some buf'))
        { cs with readMsgLen := n } = { v with readBuf := some buf', readMsgLen := n } := by
      intro n
      have hwrite : cs.writeBuf.bind (Function.update m.chars q (some buf')) =
          cs.writeBuf.bind m.chars :=
        bind_update fun x hx hxq => by simp [charRefs, hq, hx, hxq] at honce
      simp only [hv, valueOf, hq, Option.bind_some, Function.update_self, hwrite]
    rw [hmsg, hlen] at hstore ⊢
    rw [read_message_eq hs hi hq hqbuf, bind_ok hstore]
    have hmoves := @store_moves m a cs { cs with
      readMsgLen := u32 (cs.readMsgLen+
        (input.take (u32Sub cs.msgLen cs.readMsgLen)).length) } q buf' hg hs hq rfl rfl rfl
      (input.drop (u32Sub cs.msgLen cs.readMsgLen))
    rw [hvalue] at hmoves
    exact (finish_message_follows hmoves.good hmoves.here).after hmoves

theorem body_phase_follows {pb : Protobuf} (hg : Good m) (hc : conn m a = some (v, input)) :
    Follows a m (bodyPhase pb m a) (if v.reqStat = .msReadMessage ∧ 0 < input.length then
      NetworkInterface.readMessage pb a v input else .ok (.keep v input)) := by
  obtain ⟨cs,hs,hi,hv⟩ := conn_some hc
  have hstat : v.reqStat = cs.reqStat := by rw [hv, valueOf]
  rw [bodyPhase, bind_ok (session_ok hs), bind_ok (input_ok hi), ← hstat]
  split_ifs with hread
  · exact read_message_follows hg hc
  · exact ⟨m,rfl,hg,hc,fun _ _ => rfl⟩

/-- The read callback does in memory what it does to the values. -/
theorem handle_request_follows {pb : Protobuf} (hg : Good m) (hc : conn m a = some (v, input))
    (hno : v.sessionStat = .ssRequest → v.reqStat = .msReadHeader → v.readBuf = none)
    (hfree : m.chars p = none) :
    Follows a m (handleRequest pb m a p) (NetworkInterface.handleRequest pb a v input) := by
  obtain ⟨cs,hs,hi,hv⟩ := conn_some hc
  have hstat : v.sessionStat = cs.sessionStat := by rw [hv, valueOf]
  rw [handleRequest, bind_ok (session_ok hs), ← hstat, NetworkInterface.handleRequest]
  split_ifs with hreq
  · exact ⟨m,rfl,hg,hc,fun _ _ => rfl⟩
  · have hphase := @header_phase_moves m a p v input hg hc (hno (not_not.mp hreq)) hfree
    cases hr : NetworkInterface.headerPhase v input with
    | error f =>
      rw [hr] at hphase
      exact bind_error hphase
    | ok r =>
      rw [hr] at hphase
      cases r with
      | none =>
        obtain ⟨n,hn,hmoves⟩ := hphase
        exact ⟨n,by rw [bind_ok hn],hmoves⟩
      | some r =>
        obtain ⟨v1,input1⟩ := r
        obtain ⟨n,hn,hmoves⟩ := hphase
        rw [bind_ok hn]
        exact (body_phase_follows hmoves.good hmoves.here).after hmoves

theorem null_write {cs : Session} (hg : Good m) (hs : m.sessions a = some cs)
    (hno : (valueOf m.chars cs).writeBuf = none) : cs.writeBuf = none := by
  cases hw : cs.writeBuf with
  | none => rfl
  | some q =>
    have hlive := hg.chars.live a cs q hs (by simp [charRefs, hw])
    have hq : m.chars q = none := by simpa [valueOf, hw] using hno
    simp [hq] at hlive

/-- What the value of a reply says of the memory that it leaves. -/
def Replies (a : Addr) (m : Memory) (r : Except Fault (Memory × Option Bytes)) (input : Bytes) :
    Except Fault NetworkInterface.Sent → Prop
  | .error f => r = .error f
  | .ok (.wrote v bytes) => ∃ n, r = .ok (n, some bytes) ∧ Moves a m n (some (v, input))
  | .ok (.freed _) => ∃ n, r = .ok (n, none) ∧ Moves a m n none

theorem Replies.after {n : Memory} {r : Except Fault (Memory × Option Bytes)}
    {x : Except Fault NetworkInterface.Sent} {d : Option (ConnectSession × Bytes)}
    (h : Moves a m n d) (hf : Replies a n r input x) : Replies a m r input x := by
  cases x with
  | error f => exact hf
  | ok x =>
    cases x with
    | wrote v bytes => obtain ⟨k,hk,hm⟩ := hf; exact ⟨k,hk,h.trans hm⟩
    | freed request => obtain ⟨k,hk,hm⟩ := hf; exact ⟨k,hk,h.trans hm⟩

theorem send_response_replies (hg : Good m) (hc : conn m a = some (v, input)) :
    Replies a m (sendResponseMsg m a) input (NetworkInterface.sendResponseMsg v) := by
  obtain ⟨cs,hs,hi,hv⟩ := conn_some hc
  have hfields := congrArg (fun v : ConnectSession => (v.response, v.msgLen, v.writeBuf)) hv
  simp only [valueOf, Prod.mk.injEq] at hfields
  obtain ⟨hresponse,hmsg,hbind⟩ := hfields
  rw [sendResponseMsg, bind_ok (session_ok hs), ← hresponse, ← hmsg,
    NetworkInterface.sendResponseMsg]
  split_ifs with hnone
  · obtain ⟨n,hn,hclosed⟩ := close_moves hg hc
    exact ⟨n,by rw [hn]; rfl,hclosed⟩
  · cases hbuf : v.writeBuf with
    | none =>
      have hwrite := null_write hg hs (hv ▸ hbuf)
      exact bind_error (by rw [hwrite, follow])
    | some buf =>
      obtain ⟨q,hq,hqbuf⟩ := Option.bind_eq_some_iff.mp (hbind.symm.trans hbuf)
      rw [bind_ok (follow_ok hq), bind_ok (text_ok hqbuf)]
      simp only
      split_ifs with hroom
      · obtain ⟨n,hn,hreset⟩ := reset_moves hg hc
        exact ⟨n,by rw [hn]; rfl,hreset⟩
      · rfl

/-- A response is written to a buffer of its own, which is deleted with the reset. -/
theorem assemble_response_replies {pb : Protobuf} {ev : IEvent} {eid : EventId} (hg : Good m)
    (hc : conn m a = some (v, input)) (hno : v.writeBuf = none) (hfree : m.chars p = none) :
    Replies a m (assembleResponse pb m a p ev eid) input
      (NetworkInterface.assembleResponse pb v ev eid) := by
  obtain ⟨cs,hs,hi,rfl⟩ := conn_some hc
  have hwrite := null_write hg hs hno
  have hp := fresh_ref hg hs hfree
  have honce := hg.once a cs hs
  simp only [charRefs, hwrite, Option.toList_none, List.append_nil] at hp honce
  have hmoves := @made_moves m a cs { cs with
    response := some ev
    msgLen := u32 (ev.byteSize pb)
    writeBuf := some p } input p (responseFrame pb ev eid.code) hg hs hi hfree
    (by simp [charRefs, hwrite, or_comm]) ?_ rfl
  · have hread : cs.readBuf.bind (Function.update m.chars p (some (responseFrame pb ev eid.code))) =
        cs.readBuf.bind m.chars :=
      bind_update fun q hq hqp => hp (by simp [hq, hqp])
    simp only [valueOf, hread, Option.bind_some, Function.update_self] at hmoves
    rw [assembleResponse, bind_ok (session_ok hs)]
    exact (send_response_replies hmoves.good hmoves.here).after hmoves
  · simp only [charRefs, Option.toList_some]
    exact List.nodup_append.mpr ⟨honce,List.nodup_singleton p,fun x hx y hy hxy =>
      hp (by rw [← List.mem_singleton.mp hy, ← hxy]; exact hx)⟩

theorem mapped_some {α β : Type} {f : α → β} {x y : Except Fault α}
    (hf : Function.Injective f) (h : x.map f = y.map f) : x = y := by
  cases x with
  | error e =>
    cases y with
    | error e' => exact congrArg _ (Except.error.inj h)
    | ok b => simp [Except.map] at h
  | ok a =>
    cases y with
    | error e => simp [Except.map] at h
    | ok b => exact congrArg _ (hf (Except.ok.inj h))

/-- An event follows its session pointer only if it is a response. -/
theorem handle_response_replies {pb : Protobuf} {ev : IEvent} (hg : Good m)
    (hargs : ev.args = some a) (hc : conn m a = some (v, input)) (hno : v.writeBuf = none)
    (hfree : m.chars p = none) {x : Except Fault NetworkInterface.Sent}
    (h : NetworkInterface.handleResponseEvent pb ev (.ok v) = x.map some) :
    Replies a m (handleResponseEvent pb m p ev) input x := by
  have hok : argsOf ev = .ok a := by rw [argsOf, hargs]
  unfold NetworkInterface.handleResponseEvent at h
  unfold handleResponseEvent
  split_ifs at h ⊢
  · obtain rfl := mapped_some (Option.some_injective _) h
    rw [bind_ok hok]
    exact assemble_response_replies hg hc hno hfree
  · obtain rfl := mapped_some (Option.some_injective _) h
    rw [bind_ok hok]
    exact assemble_response_replies hg hc hno hfree
  · obtain rfl := mapped_some (Option.some_injective _) h
    obtain ⟨cs,hs,hi,rfl⟩ := conn_some hc
    rw [bind_ok hok, bind_ok (session_ok hs)]
    have hmoves := @set_moves m a cs { cs with response := some ev } input hg hs hi rfl rfl rfl
    exact (send_response_replies hmoves.good hmoves.here).after hmoves
  · cases x <;> simp [Except.map] at h

theorem handle_response_dropped {pb : Protobuf} {ev : IEvent}
    (h : ¬ NetworkInterface.Recognised ev) :
    handleResponseEvent pb m p ev = .ok (m, none) := by
  simp only [NetworkInterface.Recognised, NetworkInterface.HasFrame, not_or] at h
  rw [handleResponseEvent, if_neg h.1.1, if_neg h.1.2, if_neg h.2]

/-- The pointer of a response is wild, or what it points at has been deleted. -/
theorem handle_response_stale {pb : Protobuf} {ev : IEvent} {f : Fault}
    (h : NetworkInterface.Recognised ev) (hstale : ((argsOf ev).bind m.session) = .error f) :
    handleResponseEvent pb m p ev = .error f := by
  have hbind : ∀ {g : Addr → Session → Except Fault (Memory × Option Bytes)},
      ((argsOf ev).bind fun a => (m.session a).bind (g a)) = .error f := by
    intro g
    cases ha : argsOf ev with
    | error e =>
      rw [ha] at hstale
      obtain rfl := Except.error.inj hstale
      rfl
    | ok a =>
      rw [ha, bind_ok rfl] at hstale
      exact (bind_ok rfl).trans (bind_error hstale)
  unfold handleResponseEvent
  split_ifs with h1 h2 h3
  · exact hbind
  · exact hbind
  · exact hbind
  · exact absurd h (by simp [NetworkInterface.Recognised, NetworkInterface.HasFrame, h1, h2, h3])

theorem accept_moves {b : Addr} (hg : Good m) (hnone : m.sessions a = none)
    (hfree : m.bevs b = none) :
    Moves a m (listenerCb m a b) (some (NetworkInterface.sessionInit, [])) := by
  have hmoves := @replace_moves m a (some (sessionInit b)) m.chars
    (Function.update m.bevs b (some [])) hg ?_ ?_ ?_ ?_
  · simp only [Option.bind_some, sessionInit, Function.update_self, Option.map_some] at hmoves
    exact hmoves
  · rw [hnone]
    exact replaces_new rfl
  · rw [hnone]
    exact replaces_first rfl hfree
  · rintro _ ⟨⟩
    exact List.nodup_nil
  · refine bounded_of hg.bounded b (fun _ _ h => h) fun x hx h => ?_
    rwa [Function.update_of_ne hx]

theorem append_moves {cs : Session} (hg : Good m) (hs : m.sessions a = some cs)
    (bytes : Bytes) :
    Moves a m (m.setInput cs.bev (some (input++bytes)))
      (some (valueOf m.chars cs, input++bytes)) := by
  have hmoves := @edit_moves m a cs cs hg hs rfl rfl rfl (input++bytes)
  have hsame : m.setSession a cs = m := by
    rw [Memory.setSession, ← hs]
    exact congrArg (fun sessions => (⟨sessions, _, _⟩ : Memory)) (Function.update_eq_self _ _)
  rwa [hsame] at hmoves

end Stages

end SharedBike.SessionOwnership

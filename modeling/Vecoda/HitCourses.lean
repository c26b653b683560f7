import Mathlib.Data.List.Nodup
import Vecoda.HitCounts

/-!
# The courses of several stops

A command that is out belongs to one stop, and its callback is the one that the
entries of this stop lead to. An answer moves this stop on and leaves the others
alone; one whose handler raises leaves its callback behind. The numbers taken of
a breakpoint are those of its stops, in their order.
-/

set_option autoImplicit false

namespace Vecoda.HitCourses
open MessagePipe (Bytes)
open LuaText (text)
open Breakpoints (Breakpoint)
open HandleBreak HitCounts
open EventStream (Root)

section Invariant

variable {objects : ℕ → Breakpoint} {s : State} {k : ℕ}

def Decided (es : List Entry) : Prop := ∃ bBreak, .decided bBreak ∈ es

def Awaits (s : State) (j : ℕ) : Prop := ∃ id w, s.pendingRequests id = some w ∧ w.stop = j

structure Numbers (s : State) : Prop where
  nodup : s.commands.Nodup
  commands : ∀ id ∈ s.commands, id ≤ s.evaluateId <<< 16
  keys : ∀ id w, s.pendingRequests id = some w → id ≤ s.evaluateId <<< 16

/-- The stops of `P` keep their course, and every command that is out is for one of them. -/
structure CoursedOn (objects : ℕ → Breakpoint) (P : ℕ → Prop)
    (s : State) : Prop extends Numbers s where
  course : ∀ j, j < s.stops → P j → Course (objects (s.object j)) (s.log j)
  kept : ∀ j, j < s.stops → P j → Decided (s.log j) ∨ Awaits s j
  ready : ∀ id ∈ s.commands, ∀ w, s.pendingRequests id = some w → P w.stop ∧ w.stop < s.stops ∧
    Ready (objects (s.object w.stop)) (s.log w.stop) w.callback
  single : ∀ id ∈ s.commands, ∀ id' ∈ s.commands, ∀ w w', s.pendingRequests id = some w →
    s.pendingRequests id' = some w' → w.stop = w'.stop → id = id'
  fresh : ∀ j, s.stops ≤ j → s.log j = []

def Coursed (objects : ℕ → Breakpoint) : State → Prop := CoursedOn objects (fun _ => True)

def Aside (objects : ℕ → Breakpoint) (k : ℕ) : State → Prop := CoursedOn objects (fun j => j ≠ k)

theorem coursed_start : Coursed objects start where
  nodup := List.nodup_nil
  commands := List.forall_mem_nil _
  keys _ _ h := by cases h
  course _ h _ := absurd h (Nat.not_lt_zero _)
  kept _ h _ := absurd h (Nat.not_lt_zero _)
  ready := List.forall_mem_nil _
  single := List.forall_mem_nil _
  fresh _ _ := rfl

/-- A command that has gone out last has the greatest number. -/
theorem number_lt {n : ℕ} {id : ℕ} (h : id ≤ n <<< 16) : id < (n+1) <<< 16 := by
  rw [Nat.shiftLeft_eq] at h ⊢
  omega

theorem wire_number {n : ℕ} (h : n < 2^16) : (n <<< 16) % 2^32 = n <<< 16 := by
  rw [Nat.shiftLeft_eq]
  omega

section Closing

variable {r : State × Bool} {f : List Entry × Ending}

theorem enacted_course (ha : Aside objects k s) (he : Enacted k s r f) (hg : Good (objects (s.object k)) f)
    {j : ℕ} (hj : j < r.1.stops) : Course (objects (r.1.object j)) (r.1.log j) := by
  rw [he.stops] at hj
  rw [he.object]
  by_cases hjk : j = k
  · rw [hjk, he.log]
    exact hg.course
  · rw [he.others j hjk]
    exact ha.course j hj hjk

theorem enacted_fresh (hk : k < s.stops) (ha : Aside objects k s) (he : Enacted k s r f) {j : ℕ}
    (hj : r.1.stops ≤ j) : r.1.log j = [] := by
  rw [he.stops] at hj
  have hjk : j ≠ k := fun h => absurd hk (not_lt.mpr (h ▸ hj))
  rw [he.others j hjk]
  exact ha.fresh j hj

theorem closed_idle (hk : k < s.stops) (ha : Aside objects k s) (he : Enacted k s r f)
    (hg : Good (objects (s.object k)) f)
    (hid : r.1.evaluateId = s.evaluateId) (hcommands : r.1.commands = s.commands)
    (hpending : r.1.pendingRequests = s.pendingRequests) (hend : Decided f.1 ∨ Awaits s k) :
    Coursed objects r.1 where
  nodup := hcommands ▸ ha.nodup
  commands id h := by
    rw [hid]
    rw [hcommands] at h
    exact ha.commands id h
  keys id w h := by
    rw [hid]
    rw [hpending] at h
    exact ha.keys id w h
  course _ hj _ := enacted_course ha he hg hj
  kept j hj _ := by
    rw [he.stops] at hj
    unfold Awaits
    rw [hpending]
    by_cases hjk : j = k
    · rw [hjk, he.log]
      exact hend
    · rw [he.others j hjk]
      exact ha.kept j hj hjk
  ready id h w hw := by
    rw [hcommands] at h
    rw [hpending] at hw
    obtain ⟨hne,hlt,hready⟩ := ha.ready id h w hw
    rw [he.stops, he.object, he.others _ hne]
    exact ⟨trivial,hlt,hready⟩
  single := by
    rw [hcommands, hpending]
    exact ha.single
  fresh _ hj := enacted_fresh hk ha he hj

structure Sends (k : ℕ) (callback : Bool → Bool → Root → Proc) (s t : State) : Prop where
  evaluateId : t.evaluateId = s.evaluateId+1
  commands : t.commands = s.commands ++ [(s.evaluateId+1) <<< 16]
  pendingRequests : t.pendingRequests =
    Function.update s.pendingRequests ((s.evaluateId+1) <<< 16) (some ⟨k,callback⟩)

section Sending

variable {t : State} {callback : Bool → Bool → Root → Proc} {id : ℕ} {w : Waiting}

theorem sends_self (h : Sends k callback s t) :
    t.pendingRequests ((s.evaluateId+1) <<< 16) = some ⟨k,callback⟩ := by
  rw [h.pendingRequests, Function.update_self]

theorem sends_other (h : Sends k callback s t) (hid : id ≠ (s.evaluateId+1) <<< 16) :
    t.pendingRequests id = s.pendingRequests id := by
  rw [h.pendingRequests, Function.update_of_ne hid]

theorem sends_numbers (hs : Numbers s) (h : Sends k callback s t) : Numbers t := by
  refine ⟨?_,fun id hmem => ?_,fun id w hw => ?_⟩
  · rw [h.commands]
    refine hs.nodup.append (List.nodup_singleton _) (List.disjoint_singleton.mpr (fun hmem => ?_))
    exact (number_lt (hs.commands _ hmem)).ne rfl
  · rw [h.evaluateId]
    rcases List.mem_append.mp (h.commands ▸ hmem) with hmem | hmem
    · exact (number_lt (hs.commands id hmem)).le
    · exact (List.mem_singleton.mp hmem).le
  · rw [h.evaluateId]
    by_cases hne : id = (s.evaluateId+1) <<< 16
    · exact hne.le
    · rw [sends_other h hne] at hw
      exact (number_lt (hs.keys id w hw)).le

/-- A command that is out is the question, or one of those before. -/
theorem sends_cases (hs : Numbers s) (h : Sends k callback s t) (hmem : id ∈ t.commands)
    (hw : t.pendingRequests id = some w) : (id = (s.evaluateId+1) <<< 16 ∧ w = ⟨k,callback⟩) ∨
      (id ∈ s.commands ∧ s.pendingRequests id = some w) := by
  rw [h.commands] at hmem
  rcases List.mem_append.mp hmem with hmem | hmem
  · rw [sends_other h (number_lt (hs.commands id hmem)).ne] at hw
    exact .inr ⟨hmem,hw⟩
  · obtain rfl := List.mem_singleton.mp hmem
    rw [sends_self h] at hw
    exact .inl ⟨rfl,(Option.some.inj hw).symm⟩

end Sending

theorem enacted_sends (he : Enacted k s r f) (hfits : r.1.evaluateId < 2^16)
    {callback : Bool → Bool → Root → Proc} (hf : f.2 = .waits callback) : Sends k callback s r.1 := by
  have hqueued := he.queued
  rw [hf] at hqueued
  obtain ⟨hid,hcommands,hpending⟩ := hqueued
  rw [hid] at hfits
  rw [wire_number hfits] at hcommands
  exact ⟨hid,hcommands,hpending⟩

theorem closed_waiting (hk : k < s.stops) (ha : Aside objects k s) (he : Enacted k s r f)
    (hg : Good (objects (s.object k)) f) {callback : Bool → Bool → Root → Proc}
    (hf : f.2 = .waits callback) (hsends : Sends k callback s r.1) : Coursed objects r.1 := by
  refine ⟨sends_numbers ha.toNumbers hsends,fun _ hj _ => enacted_course ha he hg hj,fun j hj _ => ?_,
    fun id h w hw => ?_,fun id h id' h' w w' hw hw' hstop => ?_,fun _ hj => enacted_fresh hk ha he hj⟩
  · rw [he.stops] at hj
    by_cases hjk : j = k
    · exact .inr ⟨_,_,sends_self hsends,hjk.symm⟩
    · rw [he.others j hjk]
      apply (ha.kept j hj hjk).imp id
      rintro ⟨id,w,hw,hstop⟩
      exact ⟨id,w,(sends_other hsends (number_lt (ha.keys id w hw)).ne).trans hw,hstop⟩
  · rw [he.stops, he.object]
    rcases sends_cases ha.toNumbers hsends h hw with ⟨-,rfl⟩ | ⟨hmem,hold⟩
    · refine ⟨trivial,hk,?_⟩
      rw [he.log]
      exact hg.ready callback hf
    · obtain ⟨hne,hlt,hready⟩ := ha.ready id hmem w hold
      rw [he.others _ hne]
      exact ⟨trivial,hlt,hready⟩
  · rcases sends_cases ha.toNumbers hsends h hw with ⟨he,rfl⟩ | ⟨hmem,hold⟩
    · rcases sends_cases ha.toNumbers hsends h' hw' with ⟨he',-⟩ | ⟨hmem',hold'⟩
      · exact he.trans he'.symm
      · exact absurd hstop.symm (ha.ready id' hmem' w' hold').1
    · rcases sends_cases ha.toNumbers hsends h' hw' with ⟨-,rfl⟩ | ⟨hmem',hold'⟩
      · exact absurd hstop (ha.ready id hmem w hold).1
      · exact ha.single id hmem id' hmem' w w' hold hold' hstop

/-- A handler that raises leaves its callback behind. -/
theorem closed (hk : k < s.stops) (ha : Aside objects k s) (he : Enacted k s r f)
    (hg : Good (objects (s.object k)) f) (hfits : r.1.evaluateId < 2^16)
    (hraised : f.2 = .raised → Awaits s k) :
    Coursed objects r.1 := by
  have hqueued := he.queued
  cases hend : f.2 with
  | returned =>
    rw [hend] at hqueued
    exact closed_idle hk ha he hg hqueued.1 hqueued.2.1 hqueued.2.2 (.inl (hg.decided hend))
  | raised =>
    rw [hend] at hqueued
    exact closed_idle hk ha he hg hqueued.1 hqueued.2.1 hqueued.2.2 (.inr (hraised hend))
  | waits callback => exact closed_waiting hk ha he hg hend (enacted_sends he hfits hend)

end Closing

end Invariant

section Steps

variable {objects : ℕ → Breakpoint} {s t : State}

theorem message_returns (m : ℕ) (stats : List (Bytes × Bytes)) (t l : ℕ) (d : Decision)
    (before rest : Bytes) (es : List Entry) :
    (follow m (processStatLogSequentially stats t l
      (fun result => .emit (.output (text "stdout") result) (d.callback false)) before rest) es).2 ≠
          .raised := by
  induction rest using BreakDecision.logStats.induct stats generalizing before with
  | case1 rest hfind =>
    rw [BreakDecision.log_none hfind]
    intro h
    cases h
  | case2 rest skipped key after hfind hstat ih =>
    rw [BreakDecision.log_skip hfind hstat]
    exact ih _
  | case3 rest skipped key after hfind stat hstat ih =>
    rw [BreakDecision.log_ask hfind hstat]
    intro h
    cases h

theorem checkStatLog_returns (m : ℕ) (bp : Breakpoint) (t l : ℕ) (d : Decision) (es : List Entry) :
    (follow m (checkStatLog bp t l d.callback) es).2 ≠ .raised := by
  rw [checkStatLog]
  cases bp.statLog with
  | none => exact fun h => by cases h
  | some log => exact message_returns m log.stats t l d [] log.template es

theorem checkHitCondition_returns (m : ℕ) (bp : Breakpoint) (t l : ℕ) (d : Decision)
    (es : List Entry) :
    (follow m (checkHitCondition bp t l d.callback) es).2 ≠ .raised := by
  rw [checkHitCondition, follow]
  cases bp.hitCondition with
  | none => exact checkStatLog_returns _ bp t l d _
  | some c => exact fun h => by cases h

/-- A stop does not raise before its first answer. -/
theorem exec_returns (m : ℕ) (bp : Breakpoint) (frameId : ℕ) (d : Decision) (es : List Entry) :
    (follow m (exec bp frameId d.callback) es).2 ≠ .raised := by
  rw [exec, checkCondition]
  cases bp.condition with
  | none => exact checkHitCondition_returns m bp _ _ d es
  | some c => exact fun h => by cases h

theorem coursed_stop (h : Coursed objects s) (object frameId : ℕ) (d : Decision)
    (hs : step objects s (.stop object frameId d) = some t) (hfits : t.evaluateId < 2^16) :
    Coursed objects t := by
  rw [step] at hs
  obtain rfl := Option.some.inj hs
  generalize hu :
      ({s with stops := s.stops+1, object := Function.update s.object s.stops object} : State) = u
    at hfits ⊢
  have hobject : u.object s.stops = object := by rw [← hu]; exact Function.update_self _ _ _
  have hlog : u.log s.stops = [] := by rw [← hu]; exact h.fresh _ le_rfl
  have hother {j : ℕ} (hj : j < s.stops) : u.object j = s.object j := by
    rw [← hu]
    exact Function.update_of_ne hj.ne _ _
  have hstops : u.stops = s.stops + 1 := by rw [← hu]
  have hbelow {j : ℕ} (hj : j < u.stops) (hne : j ≠ s.stops) : j < s.stops := by omega
  have haside : Aside objects s.stops u := by
    subst hu
    refine ⟨⟨h.nodup,h.commands,h.keys⟩,fun j hj hne => ?_,fun j hj hne =>
        h.kept j (hbelow hj hne) trivial,
      fun id hid w hw => ?_,h.single,fun j hj => h.fresh j (Nat.le_of_succ_le hj)⟩
    · rw [hother (hbelow hj hne)]
      exact h.course j (hbelow hj hne) trivial
    · obtain ⟨-,hlt,hready⟩ := h.ready id hid w hw
      rw [hother hlt]
      exact ⟨hlt.ne,Nat.lt_succ_of_lt hlt,hready⟩
  have hk : s.stops < u.stops := by omega
  have henacted := enact_follow s.stops (exec (objects object) frameId d.callback) u
  have hgood : Good (objects object) (follow (u.hit (u.object s.stops))
      (exec (objects object) frameId d.callback) []) :=
        good_exec (u.hit (u.object s.stops)) frameId d
  have hreturns := exec_returns (u.hit (u.object s.stops)) (objects object) frameId d []
  rw [hlog] at henacted
  rw [hobject] at henacted hgood hreturns
  exact closed hk haside henacted (hobject.symm ▸ hgood) hfits fun h => absurd h hreturns

/-- The callback of an answer is kept until it has returned. -/
theorem coursed_forget (h : Coursed objects s) {seq k : ℕ}
    (hstop : ∀ w, s.pendingRequests seq = some w → w.stop = k)
    (hk : k < s.stops → Decided (s.log k) ∨ ∃ id w, id ≠ seq ∧ s.pendingRequests id = some w ∧
        w.stop = k) :
    Coursed objects {s with pendingRequests := Function.update s.pendingRequests seq none} := by
  have hother {id : ℕ} {w : Waiting}
      (hw : Function.update s.pendingRequests seq none id = some w) :
          s.pendingRequests id = some w := by
    by_cases hid : id = seq
    · rw [hid, Function.update_self] at hw
      cases hw
    · rwa [Function.update_of_ne hid] at hw
  refine ⟨⟨h.nodup,h.commands,fun id w hw => h.keys id w (hother hw)⟩,h.course,fun j hj _ => ?_,
    fun id hid w hw => h.ready id hid w (hother hw),
    fun id hid id' hid' w w' hw hw' => h.single id hid id' hid' w w' (hother hw) (hother hw'),
        h.fresh⟩
  have hkept {id : ℕ} {w : Waiting} (hne : id ≠ seq) (hw : s.pendingRequests id = some w)
      (hj : w.stop = j) :
      Awaits {s with pendingRequests := Function.update s.pendingRequests seq none} j :=
    ⟨id,w,(Function.update_of_ne hne _ _).trans hw,hj⟩
  by_cases hjk : j = k
  · rw [hjk] at hj hkept ⊢
    apply (hk hj).imp id
    rintro ⟨id,w,hne,hw,hstop⟩
    exact hkept hne hw hstop
  · apply (h.kept j hj trivial).imp id
    rintro ⟨id,w,hw,hj⟩
    refine hkept (fun hid => hjk ?_) hw hj
    rw [hid] at hw
    exact hj.symm.trans (hstop w hw)

/-- A command leaves the queue with its answer. -/
theorem aside_answer (h : Coursed objects s) {i seq : ℕ} (hi : s.commands[i]? = some seq)
    {w : Waiting}
    (hw : s.pendingRequests seq = some w) (e : Entry) :
    Aside objects w.stop (({s with commands := s.commands.eraseIdx i} : State).note w.stop e) := by
  have hmem : seq ∈ s.commands := List.mem_of_getElem? hi
  have hsub {id : ℕ} (hid : id ∈ s.commands.eraseIdx i) : id ∈ s.commands :=
    List.mem_of_mem_eraseIdx hid
  have hgone : seq ∉ s.commands.eraseIdx i := by
    obtain ⟨hlt,hget⟩ := List.getElem?_eq_some_iff.mp hi
    intro hseq
    obtain ⟨j,_,hne,hjseq⟩ := List.mem_eraseIdx_iff_getElem.mp hseq
    exact hne (h.nodup.getElem_inj_iff.mp (hjseq.trans hget.symm))
  have hlog {j : ℕ} (hj : j ≠ w.stop) :
      (({s with commands := s.commands.eraseIdx i} : State).note w.stop e).log j = s.log j :=
    State.note_log_ne _ _ _ hj
  refine ⟨⟨h.nodup.eraseIdx i,fun id hid => h.commands id (hsub hid),h.keys⟩,fun j hj hne => ?_,
      fun j hj hne => ?_,
    fun id hid w' hw' => ?_,fun id hid id' hid' => h.single id (hsub hid) id' (hsub hid'),
        fun j hj => ?_⟩
  · rw [hlog hne]
    exact h.course j hj trivial
  · rw [hlog hne]
    exact h.kept j hj trivial
  · have hne : w'.stop ≠ w.stop := fun heq =>
      hgone (h.single id (hsub hid) seq hmem w' w hw' hw heq ▸ hid)
    obtain ⟨-,hlt,hready⟩ := h.ready id (hsub hid) w' hw'
    rw [hlog hne]
    exact ⟨hne,hlt,hready⟩
  · have hlt := (h.ready seq hmem w hw).2.1
    rw [hlog (hlt.trans_le hj).ne']
    exact h.fresh j hj

/-- What is kept for the stop `k` when its handler has returned. -/
theorem forgotten {k seq : ℕ} {u : State} {r : State × Bool} {f : List Entry × Ending}
    (hu : Aside objects k u)
    (he : Enacted k u r f) (hg : Good (objects (u.object k)) f) (hclosed : Coursed objects r.1)
    (hraised : r.2 = false) {w : Waiting} (hw : u.pendingRequests seq = some w) (hwk : w.stop = k) :
    Coursed objects {r.1 with pendingRequests := Function.update r.1.pendingRequests seq none} := by
  have hqueued := he.queued
  have hne : f.2 ≠ .raised := fun h => absurd (he.raised.mpr h) (hraised ▸ Bool.false_ne_true)
  cases hend : f.2 with
  | returned =>
    rw [hend] at hqueued
    refine coursed_forget hclosed (fun w' hw' => ?_) fun _ => .inl (he.log ▸ hg.decided hend)
    rw [hqueued.2.2, hw] at hw'
    exact Option.some.inj hw' ▸ hwk
  | raised => exact absurd hend hne
  | waits callback =>
    rw [hend] at hqueued
    have hseq : seq ≠ (u.evaluateId+1) <<< 16 := (number_lt (hu.keys seq w hw)).ne
    refine coursed_forget hclosed (fun w' hw' => ?_) fun _ => .inr ⟨_,⟨k,callback⟩,hseq.symm,?_,rfl⟩
    · rw [hqueued.2.2, Function.update_of_ne hseq, hw] at hw'
      exact Option.some.inj hw' ▸ hwk
    · rw [hqueued.2.2, Function.update_self]

theorem coursed_evaulateRet (h : Coursed objects s) {i seq : ℕ} (hi : s.commands[i]? = some seq)
    (success : Bool) (root : Root)
    (hfits : (bpEvaulateRet {s with commands := s.commands.eraseIdx i} seq success
        root).evaluateId < 2^16) :
    Coursed objects
        (bpEvaulateRet {s with commands := s.commands.eraseIdx i} seq success root) := by
  have hsub {id : ℕ} (hid : id ∈ s.commands.eraseIdx i) : id ∈ s.commands :=
    List.mem_of_mem_eraseIdx hid
  have hskip : Coursed objects {s with commands := s.commands.eraseIdx i} :=
    ⟨⟨h.nodup.eraseIdx i,fun id hid => h.commands id (hsub hid),h.keys⟩,h.course,h.kept,
      fun id hid => h.ready id (hsub hid),fun id hid id' hid' =>
          h.single id (hsub hid) id' (hsub hid'),h.fresh⟩
  rw [bpEvaulateRet] at hfits ⊢
  dsimp only at hfits ⊢
  cases hw : s.pendingRequests seq with
  | none => exact hskip
  | some w =>
    rw [hw] at hfits
    cases hb : (if success then toboolean root else .ok false) with
    | error e =>
      dsimp only
      exact hskip
    | ok hit =>
      rw [hb] at hfits
      dsimp only at hfits ⊢
      obtain ⟨-,hlt,hready⟩ := h.ready seq (List.mem_of_getElem? hi) w hw
      have haside := aside_answer h hi hw (.answered hit)
      have hgood := good_answered hready (s.hit (s.object w.stop)) hit success root
      have henacted := enact_follow w.stop (w.callback hit success root)
        (({s with commands := s.commands.eraseIdx i} : State).note w.stop (.answered hit))
      rw [State.note_log, State.note_hit, State.note_object] at henacted
      generalize hu :
          ({s with commands := s.commands.eraseIdx i} : State).note w.stop (.answered hit) = u
        at haside henacted hfits ⊢
      have hpending : u.pendingRequests = s.pendingRequests := by rw [← hu]; rfl
      have hobject : u.object = s.object := by rw [← hu]; rfl
      have hk : w.stop < u.stops := by rw [← hu]; exact hlt
      rw [← hpending] at hw
      dsimp only at henacted
      rw [← hobject] at henacted hgood
      generalize enact w.stop (w.callback hit success root) u = r at henacted hfits ⊢
      obtain ⟨v,raised⟩ := r
      cases raised with
      | true => exact closed hk haside henacted hgood hfits fun _ => ⟨seq,w,hw,rfl⟩
      | false =>
        have hclosed := closed hk haside henacted hgood hfits fun _ => ⟨seq,w,hw,rfl⟩
        exact forgotten haside henacted hgood hclosed rfl hw rfl

theorem step_evaluateId {l : Label} (hs : step objects s l = some t) :
    s.evaluateId ≤ t.evaluateId := by
  cases l with
  | stop object frameId d =>
    have hle := enact_evaluateId s.stops (exec (objects object) frameId d.callback)
      {s with stops := s.stops+1, object := Function.update s.object s.stops object}
    exact Option.some.inj hs ▸ hle
  | answer i success root =>
    obtain ⟨seq,-,rfl⟩ := Option.map_eq_some_iff.mp hs
    rw [bpEvaulateRet]
    split
    · exact le_rfl
    · split
      · exact le_rfl
      · next w _ _ hit _ =>
        have hle := enact_evaluateId w.stop (w.callback hit success root)
          (({s with commands := s.commands.eraseIdx i} : State).note w.stop (.answered hit))
        split <;> next heq => rw [heq] at hle; exact hle

theorem coursed_step {l : Label} (h : Coursed objects s) (hs : step objects s l = some t)
    (hfits : t.evaluateId < 2^16) : Coursed objects t := by
  cases l with
  | stop object frameId d => exact coursed_stop h object frameId d hs hfits
  | answer i success root =>
    obtain ⟨seq,hi,rfl⟩ := Option.map_eq_some_iff.mp hs
    exact coursed_evaulateRet h hi success root hfits

end Steps

section Numbers

variable {objects : ℕ → Breakpoint} {s t : State}

/-- The numbers taken of a breakpoint are those of its stops in their order. -/
structure Numbered (s : State) : Prop where
  length : ∀ o, (s.counted o).length = s.hit o
  number : ∀ j, j < s.stops → ∀ n, .counted n ∈ s.log j →
    0 < n ∧ (s.counted (s.object j))[n-1]? = some j
  fresh : ∀ j, s.stops ≤ j → s.log j = []
  owned : ∀ id w, s.pendingRequests id = some w → w.stop < s.stops

theorem numbered_note (h : Numbered s) {k : ℕ} (hk : k < s.stops) {e : Entry}
    (he : ∀ n, e ≠ .counted n) :
    Numbered (s.note k e) where
  length := h.length
  number j hj n hn := by
    apply h.number j hj n
    by_cases hjk : j = k
    · rw [hjk, State.note_log] at hn
      rw [hjk]
      rcases List.mem_append.mp hn with hmem | hmem
      · exact hmem
      · exact absurd (List.mem_singleton.mp hmem).symm (he n)
    · rwa [State.note_log_ne s k e hjk] at hn
  fresh j hj := (State.note_log_ne s k e (hk.trans_le hj).ne').trans (h.fresh j hj)
  owned := h.owned

theorem count_keeps (k : ℕ) {o m j : ℕ} (h : (s.counted o)[m]? = some j) :
    ((s.count k).counted o)[m]? = some j := by
  by_cases ho : o = s.object k
  · rw [ho] at h ⊢
    rw [State.count_counted, List.getElem?_append_left (List.getElem?_eq_some_iff.mp h).1, h]
  · rw [State.count_counted_ne s k ho, h]

theorem numbered_count (h : Numbered s) {k : ℕ} (hk : k < s.stops) : Numbered (s.count k) where
  length o := by
    by_cases ho : o = s.object k
    · rw [ho, State.count_hit, State.count_counted, List.length_append, h.length,
        List.length_singleton]
    · have hhit : (s.count k).hit o = s.hit o := Function.update_of_ne ho _ _
      rw [State.count_counted_ne s k ho, hhit, h.length]
  number j hj n hn := by
    by_cases hjk : j = k
    · subst hjk
      rw [State.count_log] at hn
      rcases List.mem_append.mp hn with hmem | hmem
      · exact (h.number j hj n hmem).imp id (count_keeps j)
      · cases List.mem_singleton.mp hmem
        refine ⟨Nat.succ_pos _,?_⟩
        rw [State.count_object, State.count_counted, Nat.add_sub_cancel, ← h.length,
          List.getElem?_concat_length]
    · rw [State.count_log_ne s k hjk] at hn
      exact (h.number j hj n hn).imp id (count_keeps k)
  fresh j hj := (State.count_log_ne s k (hk.trans_le hj).ne').trans (h.fresh j hj)
  owned := h.owned

theorem entry_ne (e : Effect) {e' : Entry} (h : entry e = some e') (n : ℕ) : e' ≠ .counted n := by
  intro hn
  rw [hn] at h
  cases e <;> cases h

theorem numbered_enact (p : Proc) (h : Numbered s) {k : ℕ} (hk : k < s.stops) :
    Numbered (enact k p s).1 := by
  induction p generalizing s with
  | done => exact h
  | raise => exact h
  | emit e p ih =>
    rw [enact]
    cases he : entry e with
    | none => exact ih h hk
    | some e' => exact ih (numbered_note h hk (entry_ne e he)) hk
  | setStacks stackFrames p ih => exact ih h hk
  | hit p ih => exact ih _ (numbered_count h hk) hk
  | evaluate expression t l callback ih =>
    have hnote := numbered_note h hk (e := .asked expression) (fun n hn => by cases hn)
    refine ⟨hnote.length,hnote.number,hnote.fresh,fun id w hw => ?_⟩
    by_cases hid : id = (s.evaluateId+1) <<< 16
    · rw [enact, hid, State.ask_pending] at hw
      exact Option.some.inj hw ▸ hk
    · rw [enact, State.ask_pending_ne s k _ _ hid] at hw
      exact h.owned id w hw

theorem numbered_step {l : Label} (h : Numbered s) (hs : step objects s l = some t) :
    Numbered t := by
  cases l with
  | stop object frameId d =>
    obtain rfl := Option.some.inj hs
    generalize hu :
      ({s with stops := s.stops+1, object := Function.update s.object s.stops object} : State) = u
    have hstops : u.stops = s.stops + 1 := by rw [← hu]
    have hlog : u.log = s.log := by rw [← hu]
    have hbelow {j n : ℕ} (hn : .counted n ∈ s.log j) : j < s.stops := by
      by_contra hge
      rw [h.fresh j (not_lt.mp hge)] at hn
      cases hn
    have hnumbered : Numbered u := by
      refine ⟨fun o => ?_,fun j _ n hn => ?_,fun j hj => ?_,fun id w hw => ?_⟩
      · rw [← hu]
        exact h.length o
      · rw [hlog] at hn
        have hobject : u.object j = s.object j := by
          rw [← hu]
          exact Function.update_of_ne (hbelow hn).ne _ _
        rw [hobject, ← hu]
        exact h.number j (hbelow hn) n hn
      · rw [hlog]
        exact h.fresh j (by omega)
      · rw [← hu] at hw
        exact hstops ▸ Nat.lt_succ_of_lt (h.owned id w hw)
    exact numbered_enact _ hnumbered (by omega)
  | answer i success root =>
    obtain ⟨seq,-,rfl⟩ := Option.map_eq_some_iff.mp hs
    have hskip : Numbered {s with commands := s.commands.eraseIdx i} :=
      ⟨h.length,h.number,h.fresh,h.owned⟩
    rw [bpEvaulateRet]
    split
    · exact hskip
    · next w hw =>
      split
      · exact hskip
      · next hit _ =>
        have hlt : w.stop < s.stops := h.owned seq w hw
        have hnote :=
          numbered_note hskip (k := w.stop) hlt (e := .answered hit) (fun n hn => by cases hn)
        have henact := numbered_enact (w.callback hit success root) hnote (k := w.stop) hlt
        split
        · next heq =>
          rw [heq] at henact
          exact henact
        · next heq =>
          rw [heq] at henact
          refine ⟨henact.length,henact.number,henact.fresh,fun id w hw => ?_⟩
          dsimp only at hw
          by_cases hid : id = seq
          · rw [hid, Function.update_self] at hw
            cases hw
          · rw [Function.update_of_ne hid] at hw
            exact henact.owned id w hw

theorem numbered_start : Numbered start where
  length _ := rfl
  number _ h := absurd h (Nat.not_lt_zero _)
  fresh _ _ := rfl
  owned _ _ h := by cases h

end Numbers

section Runs

variable {objects : ℕ → Breakpoint} {s t : State}

theorem run_evaluateId (labels : List Label) (ht : labels.foldlM (step objects) s = some t) :
    s.evaluateId ≤ t.evaluateId := by
  induction labels generalizing s with
  | nil => exact (congrArg State.evaluateId (Option.some.inj ht)).le
  | cons l labels ih =>
    rw [List.foldlM_cons] at ht
    obtain ⟨u,hu,hrest⟩ := Option.bind_eq_some_iff.mp ht
    exact (step_evaluateId hu).trans (ih hrest)

theorem run_invariant (labels : List Label) (ht : labels.foldlM (step objects) s = some t)
    (hfits : t.evaluateId < 2^16) (hc : Coursed objects s) (hn : Numbered s) :
    Coursed objects t ∧ Numbered t := by
  induction labels generalizing s with
  | nil => exact Option.some.inj ht ▸ ⟨hc,hn⟩
  | cons l labels ih =>
    rw [List.foldlM_cons] at ht
    obtain ⟨u,hu,hrest⟩ := Option.bind_eq_some_iff.mp ht
    have hid := (run_evaluateId labels hrest).trans_lt hfits
    exact ih hrest (coursed_step hc hu hid) (numbered_step hn hu)

/-- Every stop keeps to its course, waits for an answer until it is decided, and has its own number
among the stops of its breakpoint whose condition held. -/
theorem stops_follow_course (labels : List Label) (t : State) (hfits : t.evaluateId < 2^16)
    (ht : labels.foldlM (step objects) start = some t) (k : ℕ) (hk : k < t.stops) :
    Course (objects (t.object k)) (t.log k) ∧ (Decided (t.log k) ∨ Awaits t k) ∧
      ∀ n, .counted n ∈ t.log k → 0 < n ∧ (t.counted (t.object k))[n-1]? = some k := by
  obtain ⟨hc,hn⟩ := run_invariant labels ht hfits coursed_start numbered_start
  exact ⟨hc.course k hk trivial,hc.kept k hk trivial,hn.number k hk⟩

def onX : Breakpoint := ⟨1,3,some [120],none,none,0⟩

/-- Two threads stop at it, and the answer to the second comes first. -/
def twoStops : List Label :=
  [.stop 0 0 ⟨0,[],1,some onX⟩,.stop 0 32 ⟨1,[],1,some onX⟩,.answer 1 false (.text none),
    .answer 0 false (.text none)]

theorem twoStops_follow_course : ∃ t, twoStops.foldlM (step (fun _ => onX)) start = some t ∧
    Course onX (t.log 1) ∧ (Decided (t.log 1) ∨ Awaits t 1) ∧
      ∀ n, .counted n ∈ t.log 1 → 0 < n ∧ (t.counted (t.object 1))[n-1]? = some 1 := by
  have hrun : (twoStops.foldlM (step (fun _ => onX)) start).map (fun t => (t.evaluateId,t.stops)) =
      some (2,2) := rfl
  obtain ⟨t,ht,hcounts⟩ := Option.map_eq_some_iff.mp hrun
  obtain ⟨hid,hstops⟩ := Prod.mk.inj hcounts
  exact ⟨t,ht,stops_follow_course twoStops t (by omega) ht 1 (by omega)⟩

end Runs

end Vecoda.HitCourses

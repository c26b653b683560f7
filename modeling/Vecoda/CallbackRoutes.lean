import Mathlib.Data.List.InsertIdx
import Mathlib.Data.List.Nodup
import Mathlib.Data.List.Perm.Basic
import Vecoda.BreakDecision
import Vecoda.Routing
import Vecoda.Transitions

/-!
# The callbacks of breakpoint evaluations

Over every run of the adapter, with the evaluations counted beside it: a command
in flight carries the number of its evaluation, a pending callback the number
of the one that registered it, and a reply is logged with the number it answers
and the number of the callback it runs.
-/

set_option autoImplicit false

namespace Vecoda.CallbackRoutes
open MessagePipe (Bytes)
open LuaText (text)
open EventStream HandleBreak Routing Transitions
open BreakDecision (conditional)
open Requests (Request Outside Label calm onTop enact answer handle)
open Variables (Command nowhere)

structure Traced where
  state : Variables.State
  flight : List (Command × Option ℕ)
  holders : ℕ → Option ℕ
  log : List (Option ℕ × Option ℕ)

def number (n : ℕ) (c : Command) : Command × Option ℕ := (c,if c.owner.isNone then some n else none)

def note (t : Traced) (s' : Variables.State) : Traced :=
  {state := s',
   flight := t.flight ++ (s'.commands.drop t.flight.length).map (number s'.evaluateId),
   holders := fun k =>
     if (s'.pendingRequests k).isNone then none
     else if s'.evaluateId ≠ t.state.evaluateId ∧ k = s'.evaluateId <<< 16 then some s'.evaluateId
     else t.holders k,
   log := t.log}

def reply (t : Traced) (i : ℕ) (success : Bool) (result : Bytes) : Traced :=
  match t.flight[i]? with
  | none => t
  | some (c,asked) =>
    {t with flight := t.flight.eraseIdx i,
            log := t.log ++ [(asked,(callback c success result t.state).bind (fun _ => t.holders c.seq))]}

def trace (t : Traced) : Label → Variables.State → Traced
  | .answer i _ success result _, s' => note (reply t i success result) s'
  | _, s' => note t s'

def Step (t : Traced) (l : Label) (t' : Traced) : Prop :=
  Requests.Step t.state l t'.state ∧ t' = trace t l t'.state

def initial : Traced := ⟨Requests.initial,[],fun _ => none,[]⟩

/-- A reply to an evaluation runs its callback and no other, and no callback is
run for two of them; a reply to a user runs none. -/
def Routed (t : Traced) : Prop :=
  (∀ e ∈ t.log, e.2 = e.1) ∧ (t.log.filterMap Prod.snd).Nodup

instance (t : Traced) : Decidable (Routed t) := inferInstanceAs (Decidable (_ ∧ _))

def decodes (success : Bool) (result : Bytes) : Bool :=
  match parseEvaluateResult (some success) (some result) with
  | .error _ => false
  | .ok (_,root) => match if success then toboolean root else .ok false with
    | .error _ => false
    | .ok _ => true

/-- The reply to an evaluation decodes, and its number has not wrapped; that to
a user's evaluation does not meet a pending callback under its number. -/
def Answers (s : Variables.State) (c : Command) (success : Bool) (result : Bytes) : Option ℕ → Prop
  | some n => n < 2^16 ∧ decodes success result = true
  | none => c.asked = .evaluate → (s.pendingRequests c.seq).isSome = true →
      decodes success result = false

def Distinguished (t : Traced) : Label → Prop
  | .answer i _ success result _ => ∀ c asked, t.flight[i]? = some (c,asked) →
      Answers t.state c success result asked
  | _ => True

theorem callback_isSome (c : Command) (success : Bool) (result : Bytes) (s : Variables.State) :
    (callback c success result s).isSome = true ↔
      c.asked = .evaluate ∧ (s.pendingRequests c.seq).isSome = true ∧ decodes success result = true := by
  unfold callback decodes
  cases parseEvaluateResult (some success) (some result) with
  | error e => simp
  | ok q =>
    obtain ⟨suc,root⟩ := q
    cases c.asked with
    | expand scope reference => simp
    | evaluate =>
      dsimp only
      cases s.pendingRequests c.seq with
      | none => simp
      | some cb => cases (if success then toboolean root else .ok false) <;> simp

section Asks

/-- What a handler can do to the callbacks and the commands: it sends a user's
command, or registers the callback of the next evaluation and asks for it. -/
inductive Asks (s : Variables.State) : Variables.State → Prop where
  | kept {s' : Variables.State} : s'.evaluateId = s.evaluateId →
      s'.pendingRequests = s.pendingRequests → s'.commands = s.commands → Asks s s'
  | sent {s' : Variables.State} (c : Command) : c.owner.isSome = true → s'.evaluateId = s.evaluateId →
      s'.pendingRequests = s.pendingRequests → s'.commands = s.commands ++ [c] → Asks s s'
  | asked {s' : Variables.State} (threadId stackLevel : ℕ)
      (callback : Bool → Bool → Root → Proc) : s'.evaluateId = s.evaluateId+1 →
      s'.pendingRequests = Function.update s.pendingRequests ((s.evaluateId+1) <<< 16) (some callback) →
      s'.commands = s.commands ++
        [⟨none,.evaluate,Variables.wire ((s.evaluateId+1) <<< 16),threadId,stackLevel⟩] → Asks s s'

variable {s t s' : Variables.State}

theorem asks_of_kept (h : Kept s s') : Asks s s' := .kept h.evaluateId h.pendingRequests h.commands

theorem asks_kept (h : Asks s t) (hk : Kept t s') : Asks s s' := by
  cases h with
  | kept he hp hc =>
    exact .kept (hk.evaluateId.trans he) (hk.pendingRequests.trans hp) (hk.commands.trans hc)
  | sent c ho he hp hc =>
    exact .sent c ho (hk.evaluateId.trans he) (hk.pendingRequests.trans hp) (hk.commands.trans hc)
  | asked threadId stackLevel callback he hp hc =>
    exact .asked threadId stackLevel callback (hk.evaluateId.trans he)
      (hk.pendingRequests.trans hp) (hk.commands.trans hc)

theorem asks_enact (thread hits : ℕ) (p : Proc) (s : Variables.State) :
    Asks s (enact thread hits p s).1 := by
  induction p generalizing hits s with
  | done => exact .kept rfl rfl rfl
  | raise => exact .kept rfl rfl rfl
  | emit e k ih =>
    have hrest := ih hits (Requests.effect s e)
    cases e with
    | emitStopped =>
      cases hrest with
      | kept he hp hc => exact .kept he hp hc
      | sent c ho he hp hc => exact .sent c ho he hp hc
      | asked threadId stackLevel callback he hp hc =>
        exact .asked threadId stackLevel callback he hp hc
    | _ => exact hrest
  | setStacks stackFrames k ih =>
    cases ih hits {s with stackTrace := Function.update s.stackTrace thread true} with
    | kept he hp hc => exact .kept he hp hc
    | sent c ho he hp hc => exact .sent c ho he hp hc
    | asked threadId stackLevel callback he hp hc =>
      exact .asked threadId stackLevel callback he hp hc
  | hit k ih => exact ih (hits+1) hits s
  | evaluate expression threadId stackLevel callback ih =>
    exact .asked threadId stackLevel callback rfl rfl rfl

theorem asks_workerStop (call : Requests.Call) (out : Outside) (s : Variables.State) :
    Asks s (Requests.workerStop call out s).1 := by
  rcases workerStop_cases call out s with hq | ⟨-,hq⟩
  · exact asks_of_kept (kept_of_quiet hq)
  · exact .kept hq.evaluateId hq.pendingRequests hq.commands

theorem asks_handle (out : Outside) (req : Request) (s : Variables.State) :
    Asks s (handle out req s) := by
  have hacts := handle_acts out req s
  unfold Spec at hacts
  split at hacts
  · exact .kept hacts.evaluateId hacts.pendingRequests hacts.commands
  · exact .kept hacts.evaluateId hacts.pendingRequests hacts.commands
  · cases hacts with
    | quiet hq => exact .kept hq.evaluateId hq.pendingRequests hq.commands
    | began hc hq => exact .kept hq.evaluateId hq.pendingRequests hq.commands
    | sent c hd ht ho hq =>
      exact .sent c (by rw [ho]; rfl) hq.evaluateId hq.pendingRequests hq.commands
    | ended hd hq => exact .kept hq.evaluateId hq.pendingRequests hq.commands

end Asks

section Invariant

/-- A numbered command in flight waits for the callback registered under its own
number, as long as no reply is routed wrongly. -/
structure Consistent (t : Traced) : Prop where
  flight : t.flight.map Prod.fst = t.state.commands
  waiting : ∀ c n, (c,some n) ∈ t.flight → c.asked = .evaluate ∧
    c.seq = Variables.wire (n <<< 16) ∧ t.holders (n <<< 16) = some n
  held : ∀ k n, t.holders k = some n → k = n <<< 16 ∧ n ≤ t.state.evaluateId
  pending : ∀ k, t.holders k = none ↔ t.state.pendingRequests k = none
  distinct : (t.flight.filterMap Prod.snd ++ t.log.filterMap Prod.fst).Nodup
  counted : ∀ n ∈ t.flight.filterMap Prod.snd ++ t.log.filterMap Prod.fst, n ≤ t.state.evaluateId
  routed : ∀ e ∈ t.log, e.2 = e.1

theorem consistent_initial : Consistent initial :=
  ⟨rfl,nofun,nofun,fun _ => ⟨fun _ => rfl,fun _ => rfl⟩,List.nodup_nil,nofun,nofun⟩

theorem consistent_routed {t : Traced} (h : Consistent t) : Routed t := by
  refine ⟨h.routed,?_⟩
  have hsame : t.log.filterMap Prod.snd = t.log.filterMap Prod.fst :=
    List.filterMap_congr (fun e he => h.routed e he)
  rw [hsame]
  exact (List.nodup_append.mp h.distinct).2.1

variable {t : Traced} {s' : Variables.State}

theorem number_user {c : Command} (n : ℕ) (h : c.owner.isSome = true) : number n c = (c,none) := by
  unfold number
  rw [Option.isSome_iff_ne_none, ne_eq, ← Option.isNone_iff_eq_none] at h
  rw [if_neg h]

theorem shift_injective {n m : ℕ} (h : n <<< 16 = m <<< 16) : n = m := by
  rw [Nat.shiftLeft_eq, Nat.shiftLeft_eq] at h
  omega

/-- The holders after a handler that has registered nothing. -/
theorem note_holders (h : Consistent t) (he : s'.evaluateId = t.state.evaluateId)
    (hp : s'.pendingRequests = t.state.pendingRequests) : (note t s').holders = t.holders := by
  funext k
  unfold note
  dsimp only
  rw [he, hp]
  by_cases hk : t.state.pendingRequests k = none
  · rw [if_pos (by rw [hk]; rfl), (h.pending k).mpr hk]
  · rw [if_neg (by rwa [Option.isNone_iff_eq_none]), if_neg (fun hne => hne.1 rfl)]

/-- The holders after an evaluation has been registered. -/
theorem note_holders_asked (h : Consistent t) {callback : Bool → Bool → Root → Proc}
    (he : s'.evaluateId = t.state.evaluateId+1) (hp : s'.pendingRequests =
      Function.update t.state.pendingRequests ((t.state.evaluateId+1) <<< 16) (some callback)) :
    (note t s').holders =
      Function.update t.holders ((t.state.evaluateId+1) <<< 16) (some (t.state.evaluateId+1)) := by
  funext k
  unfold note
  dsimp only
  rw [he, hp]
  have hgrown : t.state.evaluateId+1 ≠ t.state.evaluateId := by omega
  generalize (t.state.evaluateId+1) <<< 16 = key
  by_cases hk : k = key
  · rw [hk, Function.update_self, Function.update_self, if_neg (by simp), if_pos ⟨hgrown,rfl⟩]
  · rw [Function.update_of_ne hk, Function.update_of_ne hk]
    by_cases hnone : t.state.pendingRequests k = none
    · rw [if_pos (by rw [hnone]; rfl), (h.pending k).mpr hnone]
    · rw [if_neg (by rwa [Option.isNone_iff_eq_none]), if_neg (fun hand => hk hand.2)]

theorem note_asked (h : Consistent t) {callback : Bool → Bool → Root → Proc} {threadId stackLevel : ℕ}
    (he : s'.evaluateId = t.state.evaluateId+1) (hp : s'.pendingRequests =
      Function.update t.state.pendingRequests ((t.state.evaluateId+1) <<< 16) (some callback))
    (hc : s'.commands = t.state.commands ++
      [⟨none,.evaluate,Variables.wire ((t.state.evaluateId+1) <<< 16),threadId,stackLevel⟩]) :
    Consistent (note t s') := by
  have hlen : t.flight.length = t.state.commands.length := by rw [← h.flight, List.length_map]
  have hholders := note_holders_asked h he hp
  generalize hn : t.state.evaluateId+1 = n at *
  have hflight : (note t s').flight =
      t.flight ++ [(⟨none,.evaluate,Variables.wire (n <<< 16),threadId,stackLevel⟩,some n)] := by
    simp [note, hc, hlen, number, he]
  have hold {m : ℕ} (hm : m ≤ t.state.evaluateId) : m <<< 16 ≠ n <<< 16 := by
    intro heq
    have := shift_injective heq
    omega
  have hperm : ((note t s').flight.filterMap Prod.snd ++ (note t s').log.filterMap Prod.fst).Perm
      (n :: (t.flight.filterMap Prod.snd ++ t.log.filterMap Prod.fst)) := by
    rw [hflight, List.filterMap_append, List.append_assoc]
    exact List.perm_middle
  have hfresh : n ∉ t.flight.filterMap Prod.snd ++ t.log.filterMap Prod.fst := by
    intro hmem
    have := h.counted n hmem
    omega
  refine ⟨?_,fun c m hcm => ?_,fun k m hk => ?_,fun k => ?_,?_,fun m hm => ?_,h.routed⟩
  · rw [hflight, List.map_append, h.flight]
    exact hc.symm
  · rw [hholders]
    rw [hflight] at hcm
    rcases List.mem_append.mp hcm with hcm | hcm
    · have hwait := h.waiting c m hcm
      rw [Function.update_of_ne (hold (h.held _ _ hwait.2.2).2)]
      exact hwait
    · cases List.mem_singleton.mp hcm
      exact ⟨rfl,rfl,Function.update_self ..⟩
  · rw [hholders, Function.update_apply] at hk
    change k = m <<< 16 ∧ m ≤ s'.evaluateId
    rw [he]
    split at hk
    · rename_i hkey
      cases hk
      exact ⟨hkey,le_refl n⟩
    · have hheld := h.held k m hk
      exact ⟨hheld.1,by omega⟩
  · rw [hholders]
    change _ ↔ s'.pendingRequests k = none
    rw [hp]
    by_cases hk : k = n <<< 16
    · rw [hk, Function.update_self, Function.update_self]
      simp
    · rw [Function.update_of_ne hk, Function.update_of_ne hk]
      exact h.pending k
  · exact hperm.nodup_iff.mpr (List.nodup_cons.mpr ⟨hfresh,h.distinct⟩)
  · change m ≤ s'.evaluateId
    rw [he]
    rcases List.mem_cons.mp (hperm.mem_iff.mp hm) with rfl | hm
    · exact le_refl m
    · have := h.counted m hm
      omega

theorem note_consistent (h : Consistent t) (ha : Asks t.state s') : Consistent (note t s') := by
  have hlen : t.flight.length = t.state.commands.length := by rw [← h.flight, List.length_map]
  cases ha with
  | kept he hp hc =>
    have hflight : (note t s').flight = t.flight := by simp [note, hc, hlen]
    have hholders := note_holders h he hp
    refine ⟨?_,?_,?_,?_,?_,?_,h.routed⟩
    · rw [hflight, h.flight]
      exact hc.symm
    · rw [hflight, hholders]
      exact h.waiting
    · rw [hholders]
      exact fun k n hk => ⟨(h.held k n hk).1,he ▸ (h.held k n hk).2⟩
    · rw [hholders]
      exact fun k => hp ▸ h.pending k
    · rw [hflight]
      exact h.distinct
    · rw [hflight]
      exact fun n hn => he ▸ h.counted n hn
  | sent c ho he hp hc =>
    have hflight : (note t s').flight = t.flight ++ [(c,none)] := by
      simp [note, hc, hlen, number_user _ ho]
    have hholders := note_holders h he hp
    have hnumbers : (note t s').flight.filterMap Prod.snd = t.flight.filterMap Prod.snd := by
      simp [hflight]
    refine ⟨?_,?_,?_,?_,?_,?_,h.routed⟩
    · rw [hflight, List.map_append, h.flight]
      exact hc.symm
    · rw [hflight, hholders]
      intro d n hd
      rcases List.mem_append.mp hd with hd | hd
      · exact h.waiting d n hd
      · cases List.mem_singleton.mp hd
    · rw [hholders]
      exact fun k n hk => ⟨(h.held k n hk).1,he ▸ (h.held k n hk).2⟩
    · rw [hholders]
      exact fun k => hp ▸ h.pending k
    · rw [hnumbers]
      exact h.distinct
    · rw [hnumbers]
      exact fun n hn => he ▸ h.counted n hn
  | asked threadId stackLevel callback he hp hc =>
    exact note_asked h he hp hc

/-- A callback that no command in flight waits for may be dropped. -/
theorem drop_consistent (h : Consistent t) {k : ℕ} (hk : ∀ c n, (c,some n) ∈ t.flight → n <<< 16 ≠ k) :
    Consistent {t with
      state := {t.state with pendingRequests := Function.update t.state.pendingRequests k none},
      holders := Function.update t.holders k none} := by
  refine ⟨h.flight,fun c n hc => ?_,fun j n hj => ?_,fun j => ?_,h.distinct,h.counted,h.routed⟩
  · dsimp only
    rw [Function.update_of_ne (hk c n hc)]
    exact h.waiting c n hc
  · dsimp only at hj
    by_cases hjk : j = k
    · rw [hjk, Function.update_self] at hj
      cases hj
    · rw [Function.update_of_ne hjk] at hj
      exact h.held j n hj
  · dsimp only
    by_cases hjk : j = k
    · simp [hjk]
    · rw [Function.update_of_ne hjk, Function.update_of_ne hjk]
      exact h.pending j

theorem consistent_kept (h : Consistent t) (hk : Kept t.state s') : Consistent {t with state := s'} :=
  ⟨h.flight.trans hk.commands.symm,h.waiting,
    fun k n hn => ⟨(h.held k n hn).1,hk.evaluateId.symm ▸ (h.held k n hn).2⟩,
    fun k => hk.pendingRequests.symm ▸ h.pending k,h.distinct,
    fun n hn => hk.evaluateId.symm ▸ h.counted n hn,h.routed⟩

theorem note_dropped {s : Variables.State} {k : ℕ}
    (hk : Kept {s with pendingRequests := Function.update s.pendingRequests k none} s') :
    note t s' = {note t s with state := s', holders := Function.update (note t s).holders k none} := by
  have hholders : (note t s').holders = Function.update (note t s).holders k none := by
    funext j
    unfold note
    dsimp only
    rw [hk.pendingRequests, hk.evaluateId]
    dsimp only
    by_cases hj : j = k
    · simp [hj]
    · simp [Function.update_of_ne hj]
  have hflight : (note t s').flight = (note t s).flight := by
    unfold note
    dsimp only
    rw [hk.commands, hk.evaluateId]
  rw [Traced.mk.injEq]
  exact ⟨rfl,hflight,hholders,rfl⟩

end Invariant

section Replies

variable {t : Traced} {i : ℕ} {c : Command} {asked : Option ℕ}

/-- The callback that a reply runs is that of its own evaluation under one condition only. -/
theorem reply_ran (h : Consistent t) (hi : t.flight[i]? = some (c,asked)) (success : Bool)
    (result : Bytes) :
    (callback c success result t.state).bind (fun _ => t.holders c.seq) = asked ↔
      Answers t.state c success result asked := by
  have hmem := List.mem_of_getElem? hi
  have hiff := callback_isSome c success result t.state
  cases asked with
  | none =>
    unfold Answers
    cases hcall : callback c success result t.state with
    | none =>
      rw [hcall] at hiff
      simp only [Option.isSome_none, Bool.false_eq_true, false_iff] at hiff
      refine ⟨fun _ heval hsome => ?_,fun _ => rfl⟩
      exact Bool.eq_false_iff.mpr (fun hdec => hiff ⟨heval,hsome,hdec⟩)
    | some p =>
      obtain ⟨heval,hsome,hdec⟩ := hiff.mp (by rw [hcall]; rfl)
      rw [Option.bind_some, h.pending]
      refine ⟨fun hnone => ?_,fun himp => ?_⟩
      · rw [hnone] at hsome
        cases hsome
      · rw [himp heval hsome] at hdec
        cases hdec
  | some n =>
    obtain ⟨heval,hseq,hholds⟩ := h.waiting c n hmem
    unfold Answers
    constructor
    · intro hran
      obtain ⟨p,hcall,hheld⟩ := Option.bind_eq_some_iff.mp hran
      have hkey := (h.held _ _ hheld).1
      rw [hseq, Variables.wire, Nat.shiftLeft_eq] at hkey
      have hlt := Nat.mod_lt (n * 2^16) (show 0 < 2^32 by norm_num)
      exact ⟨by omega,(hiff.mp (by rw [hcall]; rfl)).2.2⟩
    · rintro ⟨hlt,hdec⟩
      have hkey : c.seq = n <<< 16 := by
        rw [hseq, Variables.wire, Nat.shiftLeft_eq]
        omega
      have hsome : (t.state.pendingRequests c.seq).isSome = true := by
        rw [hkey, Option.isSome_iff_ne_none, ne_eq, ← h.pending, hholds]
        exact Option.some_ne_none n
      obtain ⟨p,hcall⟩ := Option.isSome_iff_exists.mp (hiff.mpr ⟨heval,hsome,hdec⟩)
      rw [hcall, Option.bind_some, hkey, hholds]

theorem reply_eq (hi : t.flight[i]? = some (c,asked)) (success : Bool) (result : Bytes) :
    reply t i success result = {t with
      flight := t.flight.eraseIdx i,
      log := t.log ++ [(asked,(callback c success result t.state).bind (fun _ => t.holders c.seq))]} := by
  unfold reply
  rw [hi]

theorem reply_consistent (h : Consistent t) (hi : t.flight[i]? = some (c,asked)) :
    Consistent {t with
      state := {t.state with commands := t.state.commands.eraseIdx i},
      flight := t.flight.eraseIdx i,
      log := t.log ++ [(asked,asked)]} := by
  have hlt : i < t.flight.length := (List.getElem?_eq_some_iff.mp hi).1
  have hget : t.flight[i] = (c,asked) := (List.getElem?_eq_some_iff.mp hi).2
  have hperm : ((t.flight.eraseIdx i).filterMap Prod.snd ++ (t.log ++ [(asked,asked)]).filterMap Prod.fst).Perm
      (t.flight.filterMap Prod.snd ++ t.log.filterMap Prod.fst) := by
    have herase := (List.getElem_cons_eraseIdx_perm hlt).filterMap Prod.snd
    rw [hget] at herase
    cases asked with
    | none => simpa using herase.append_right _
    | some n =>
      refine List.Perm.trans ?_ (herase.append_right _)
      rw [List.filterMap_append, ← List.append_assoc]
      exact List.perm_append_singleton n _
  refine ⟨?_,fun d n hd => ?_,h.held,h.pending,?_,fun n hn => ?_,fun e he => ?_⟩
  · dsimp only
    rw [← h.flight, List.eraseIdx_map]
  · exact h.waiting d n (List.mem_of_mem_eraseIdx hd)
  · exact hperm.nodup_iff.mpr h.distinct
  · exact h.counted n (hperm.mem_iff.mp hn)
  · rcases List.mem_append.mp he with he | he
    · exact h.routed e he
    · rw [List.mem_singleton.mp he]

theorem answer_consistent (h : Consistent t) (hi : t.flight[i]? = some (c,asked)) (hits : ℕ)
    {success : Bool} {result : Bytes} (host : Variables.Host)
    (hran : (callback c success result t.state).bind (fun _ => t.holders c.seq) = asked) :
    Consistent (note (reply t i success result) (answer host hits c success result
      {t.state with commands := t.state.commands.eraseIdx i}).1) := by
  have hreply := reply_consistent h hi
  have hkept := answer_kept host hits c success result
    {t.state with commands := t.state.commands.eraseIdx i}
  have hsame : callback c success result {t.state with commands := t.state.commands.eraseIdx i} =
      callback c success result t.state := rfl
  rw [hsame] at hkept
  generalize (answer host hits c success result _).1 = s' at hkept ⊢
  rw [reply_eq hi, hran]
  change Consistent (note {t with
      state := {t.state with commands := t.state.commands.eraseIdx i},
      flight := t.flight.eraseIdx i,
      log := t.log ++ [(asked,asked)]} s')
  cases hcall : callback c success result t.state with
  | none =>
    rw [hcall] at hkept
    exact note_consistent hreply (asks_of_kept hkept)
  | some p =>
    rw [hcall] at hkept
    dsimp only at hkept
    have hasks := asks_enact c.vm hits p {t.state with commands := t.state.commands.eraseIdx i}
    unfold called at hkept
    cases henact : enact c.vm hits p {t.state with commands := t.state.commands.eraseIdx i} with
    | mk s raised =>
      rw [henact] at hkept hasks
      cases raised with
      | true => exact note_consistent hreply (asks_kept hasks hkept)
      | false =>
        rw [note_dropped hkept]
        have hnoted := note_consistent hreply hasks
        refine consistent_kept (drop_consistent hnoted (fun d m hd hkey => ?_)) hkept
        have hrun := (callback_isSome c success result t.state).mp (by rw [hcall]; rfl)
        rw [hcall, Option.bind_some] at hran
        cases asked with
        | none =>
          rw [(h.pending _).mp hran] at hrun
          cases hrun.2.1
        | some n =>
          have hmn : m = n := shift_injective (hkey.trans (h.held _ _ hran).1)
          have hmem := List.mem_filterMap (f := Prod.snd).mpr ⟨(d,some m),hd,rfl⟩
          have hlog : n ∈ (t.log ++ [(some n,some n)]).filterMap Prod.fst := by simp
          exact (List.nodup_append.mp hnoted.distinct).2.2 m hmem n hlog hmn

end Replies

section Runs

theorem step_flight {t t' : Traced} {i hits : ℕ} {success : Bool} {result : Bytes}
    {host : Variables.Host} (h : Consistent t) (hs : Step t (.answer i hits success result host) t') :
    ∃ c asked, t.flight[i]? = some (c,asked) ∧
      t' = note (reply t i success result) (answer host hits c success result
        {t.state with commands := t.state.commands.eraseIdx i}).1 := by
  obtain ⟨⟨-,c,hc,hstate⟩,ht⟩ := hs
  rw [← h.flight, List.getElem?_map, Option.map_eq_some_iff] at hc
  obtain ⟨⟨d,asked⟩,hi,rfl⟩ := hc
  exact ⟨d,asked,hi,by rw [ht, hstate]; rfl⟩

theorem step_consistent (t : Traced) (l : Label) (t' : Traced) (h : Consistent t) (hs : Step t l t')
    (hd : Distinguished t l) : Consistent t' := by
  cases l with
  | answer i hits success result host =>
    obtain ⟨c,asked,hi,rfl⟩ := step_flight h hs
    exact answer_consistent h hi hits host ((reply_ran h hi success result).mpr (hd c asked hi))
  | request req out =>
    obtain ⟨⟨-,-,hstate⟩,ht⟩ := hs
    rw [ht, hstate]
    have hasks := asks_handle out req {t.state with received := t.state.received ++ [req.seq]}
    have hreceived : Consistent
        {t with state := {t.state with received := t.state.received ++ [req.seq]}} :=
      consistent_kept h ⟨rfl,rfl,rfl,rfl,rfl⟩
    have hnoted := note_consistent hreceived hasks
    exact hnoted
  | stop nvm hits event a =>
    obtain ⟨⟨-,hstate⟩,ht⟩ := hs
    rw [ht, hstate]
    exact note_consistent h (asks_enact nvm hits _ t.state)
  | other =>
    obtain ⟨⟨-,hstate⟩,ht⟩ := hs
    rw [ht, hstate]
    exact note_consistent h (.kept rfl rfl rfl)
  | disconnected out =>
    obtain ⟨⟨-,hstate⟩,ht⟩ := hs
    rw [ht, hstate]
    exact note_consistent h (asks_workerStop .stopDebuggee out t.state)

theorem step_misrouted (t : Traced) (l : Label) (t' : Traced) (h : Consistent t) (hs : Step t l t')
    (hd : ¬ Distinguished t l) : ¬ Routed t' := by
  cases l with
  | answer i hits success result host =>
    obtain ⟨c,asked,hi,rfl⟩ := step_flight h hs
    intro hrouted
    refine hd (fun d asked' hi' => ?_)
    rw [hi] at hi'
    cases hi'
    apply (reply_ran h hi success result).mp
    have hlog := hrouted.1 (asked,(callback c success result t.state).bind (fun _ => t.holders c.seq))
    exact hlog (by simp [note, reply, hi])
  | _ => exact absurd trivial hd

theorem routed_along_iff (ls : List Label) :
    Along Step Routed initial ls ↔ Meets Step Distinguished initial ls :=
  along_iff_meets (fun _ h => consistent_routed h) step_consistent step_misrouted initial ls
    consistent_initial

end Runs

section Counterexample

def next (t : Traced) (l : Label) : Option Traced := (Requests.perform t.state l).map (trace t l)

theorem step_next (t : Traced) (l : Label) (t' : Traced) (h : next t l = some t') : Step t l t' := by
  obtain ⟨s',hs,rfl⟩ := Option.map_eq_some_iff.mp h
  have hstate : (trace t l s').state = s' := by cases l <;> rfl
  exact ⟨by rw [hstate]; exact Requests.step_iff_perform.mpr hs,by rw [hstate]⟩

/-- A user's evaluation has the number 65536, and is answered while the first
condition waits under the same one. -/
def colliding : List Label :=
  [.request (onTop 1 .launch 8) calm,.stop 8 0 (breakAt 2 4) conditional,
   .request (onTop 65536 .evaluate 8) calm,.stop 4 0 (breakAt 1 4) conditional,
   .answer 0 0 true (text "<r><t></t></r>") nowhere]

theorem colliding_runs : (colliding.foldlM next initial).isSome = true := by decide +kernel

theorem colliding_not_routed : ¬ Along Step Routed initial colliding := by
  intro h
  have hend := along_runs h (runs_of_foldlM (Option.some_get colliding_runs).symm
    (fun l _ t t' ht => step_next t l t' ht))
  exact absurd hend (by decide +kernel)

end Counterexample

end Vecoda.CallbackRoutes

import Mathlib.Data.List.Perm.Basic
import Vecoda.Requests

/-!
# Responses and commands in flight

In a lawful state every request received has either its one response or one
command in flight, and every response belongs to a request received. A piece
of the handling adds responses for one number and commands of one owner, and
how many it adds decides whether the law is kept.
-/

set_option autoImplicit false

namespace Vecoda.Responses
open Variables Requests

def answered (s : State) (seq : ℕ) : ℕ := s.responses.countP (·.requestSeq = seq)

def inFlight (s : State) (seq : ℕ) : ℕ := s.commands.countP (·.owner = some seq)

structure Lawful (s : State) : Prop where
  once : ∀ seq ∈ s.received, answered s seq + inFlight s seq = 1
  known : ∀ r ∈ s.responses, r.requestSeq ∈ s.received

def Routed (s : State) : Prop :=
  ∀ c ∈ s.commands, match c.owner with
    | none => c.asked = .evaluate
    | some seq => seq ∈ s.received

structure Adds (seq : ℕ) (owner : Option ℕ) (s s' : State) (rs : List Response) (cs : List Command) :
    Prop where
  received : s'.received = s.received
  responses : s'.responses = s.responses ++ rs
  commands : s'.commands = s.commands ++ cs
  numbered : ∀ r ∈ rs, r.requestSeq = seq
  owned : ∀ c ∈ cs, c.owner = owner
  evaluates : owner = none → ∀ c ∈ cs, c.asked = .evaluate

section Adds

variable {seq : ℕ} {owner : Option ℕ} {s s' s'' : State} {rs rs' : List Response}
  {cs cs' : List Command}

theorem adds_nothing (h : s'.received = s.received) (hr : s'.responses = s.responses)
    (hc : s'.commands = s.commands) : Adds seq owner s s' [] [] :=
  ⟨h,by simp [hr],by simp [hc],nofun,nofun,fun _ => nofun⟩

theorem adds_response (h : s'.received = s.received) (success : Bool)
    (hr : s'.responses = s.responses) (hc : s'.commands = s.commands) :
    Adds seq owner s (s'.respond seq success) [⟨seq,success⟩] [] :=
  ⟨h,by simp [State.respond, hr],by simp [State.respond, hc],by simp,nofun,fun _ => nofun⟩

theorem adds_trans (h : Adds seq owner s s' rs cs) (h' : Adds seq owner s' s'' rs' cs') :
    Adds seq owner s s'' (rs ++ rs') (cs ++ cs') where
  received := h'.received.trans h.received
  responses := by rw [h'.responses, h.responses, List.append_assoc]
  commands := by rw [h'.commands, h.commands, List.append_assoc]
  numbered := fun r hr => (List.mem_append.mp hr).elim (h.numbered r) (h'.numbered r)
  owned := fun c hc => (List.mem_append.mp hc).elim (h.owned c) (h'.owned c)
  evaluates := fun ho c hc => (List.mem_append.mp hc).elim (h.evaluates ho c) (h'.evaluates ho c)

theorem countP_uniform {α : Type} (p : α → Bool) (b : Bool) (l : List α) (h : ∀ x ∈ l, p x = b) :
    l.countP p = if b then l.length else 0 := by
  cases b with
  | true => exact List.countP_eq_length.mpr h
  | false => exact List.countP_eq_zero.mpr (fun x hx => by simp [h x hx])

theorem answered_adds (h : Adds seq owner s s' rs cs) (q : ℕ) :
    answered s' q = answered s q + if seq = q then rs.length else 0 := by
  rw [answered, h.responses, List.countP_append, answered, countP_uniform _ (decide (seq = q)) rs
    (fun r hr => by rw [h.numbered r hr])]
  simp

theorem inFlight_adds (h : Adds seq owner s s' rs cs) (q : ℕ) :
    inFlight s' q = inFlight s q + if owner = some q then cs.length else 0 := by
  rw [inFlight, h.commands, List.countP_append, inFlight, countP_uniform _ (decide (owner = some q)) cs
    (fun c hc => by rw [h.owned c hc])]
  simp

theorem routed_adds (h : Adds seq owner s s' rs cs) (hs : Routed s)
    (ho : ∀ q, owner = some q → q ∈ s.received) : Routed s' := by
  intro c hc
  rw [h.commands] at hc
  rcases List.mem_append.mp hc with hc | hc
  · have := hs c hc
    rwa [h.received]
  · rw [h.received, h.owned c hc]
    cases howner : owner with
    | none => exact h.evaluates howner c hc
    | some q => exact ho q howner

end Adds

def receive (s : State) (seq : ℕ) : State := {s with received := s.received ++ [seq]}

/-- A number that was not received has neither a response nor a command. -/
theorem fresh_counts {s : State} {seq : ℕ} (hs : Lawful s) (hr : Routed s) (hfresh : seq ∉ s.received) :
    answered s seq = 0 ∧ inFlight s seq = 0 := by
  constructor
  · refine List.countP_eq_zero.mpr (fun r hmem => ?_)
    simp only [decide_eq_true_eq]
    rintro rfl
    exact hfresh (hs.known r hmem)
  · refine List.countP_eq_zero.mpr (fun c hmem => ?_)
    simp only [decide_eq_true_eq]
    intro howner
    have := hr c hmem
    rw [howner] at this
    exact hfresh this

theorem known_adds_iff {seq : ℕ} {owner : Option ℕ} {s s' : State} {rs : List Response}
    {cs : List Command} (hk : ∀ r ∈ s.responses, r.requestSeq ∈ s.received)
    (h : Adds seq owner s s' rs cs) :
    (∀ r ∈ s'.responses, r.requestSeq ∈ s'.received) ↔ (rs = [] ∨ seq ∈ s.received) := by
  rw [h.received, h.responses]
  constructor
  · intro hall
    cases rs with
    | nil => exact .inl rfl
    | cons r rs =>
      have hr := hall r (List.mem_append.mpr (.inr List.mem_cons_self))
      rw [h.numbered r List.mem_cons_self] at hr
      exact .inr hr
  · rintro hor r hmem
    rcases List.mem_append.mp hmem with hold | hnew
    · exact hk r hold
    · rw [h.numbered r hnew]
      rcases hor with hnil | hseq
      · rw [hnil] at hnew
        cases hnew
      · exact hseq

/-- A request is handled lawfully if one response or one command comes of it. -/
theorem lawful_request {s s' : State} {seq : ℕ} {rs : List Response} {cs : List Command}
    (hs : Lawful s) (hr : Routed s) (hfresh : seq ∉ s.received)
    (h : Adds seq (some seq) (receive s seq) s' rs cs) : Lawful s' ↔ rs.length + cs.length = 1 := by
  obtain ⟨ha,hf⟩ := fresh_counts hs hr hfresh
  have hcount : answered s' seq + inFlight s' seq = rs.length + cs.length := by
    have ha' : answered (receive s seq) seq = 0 := ha
    have hf' : inFlight (receive s seq) seq = 0 := hf
    rw [answered_adds h, inFlight_adds h, ha', hf']
    simp
  have hmem : seq ∈ (receive s seq).received :=
    List.mem_append.mpr (.inr (List.mem_singleton.mpr rfl))
  constructor
  · intro hlawful
    rw [← hcount]
    exact hlawful.once seq (h.received ▸ hmem)
  · intro hone
    refine ⟨fun q hq => ?_,(known_adds_iff (fun r hr => ?_) h).mpr (.inr hmem)⟩
    · by_cases heq : seq = q
      · rw [← heq, hcount, hone]
      · have hold : q ∈ s.received := by
          rw [h.received] at hq
          rcases List.mem_append.mp hq with hq | hq
          · exact hq
          · exact absurd (List.mem_singleton.mp hq).symm heq
        rw [answered_adds h, inFlight_adds h, if_neg heq, if_neg (by simpa using heq)]
        exact hs.once q hold
    · exact List.mem_append.mpr (.inl (hs.known r hr))

def take (s : State) (i : ℕ) : State := {s with commands := s.commands.eraseIdx i}

theorem inFlight_take {s : State} {i : ℕ} {c : Command} (hc : s.commands[i]? = some c) (q : ℕ) :
    inFlight s q = inFlight (take s i) q + if c.owner = some q then 1 else 0 := by
  obtain ⟨hlt,rfl⟩ := List.getElem?_eq_some_iff.mp hc
  have hperm := List.getElem_cons_eraseIdx_perm hlt
  rw [inFlight, ← hperm.countP_eq, List.countP_cons]
  simp only [decide_eq_true_eq]
  rfl

/-- The answered command is exchanged for the responses of its answer. -/
theorem count_answer {s s' : State} {i : ℕ} {c : Command} {rs : List Response} {cs : List Command}
    (hc : s.commands[i]? = some c) (h : Adds c.seq none (take s i) s' rs cs) (q : ℕ) :
    answered s' q + inFlight s' q + (if c.owner = some q then 1 else 0) =
      answered s q + inFlight s q + if c.seq = q then rs.length else 0 := by
  have ha : answered (take s i) q = answered s q := rfl
  have hnone : (if (none : Option ℕ) = some q then cs.length else 0) = 0 := if_neg (by simp)
  rw [answered_adds h, inFlight_adds h, inFlight_take hc q, ha, hnone]
  omega

/-- An answer is handled lawfully if it brings the one response of its request,
or none if it was for a breakpoint. -/
theorem lawful_answer {s s' : State} {i : ℕ} {c : Command} {rs : List Response} {cs : List Command}
    (hs : Lawful s) (hr : Routed s) (hc : s.commands[i]? = some c)
    (h : Adds c.seq none (take s i) s' rs cs) :
    Lawful s' ↔ match c.owner with
      | none => rs = []
      | some seq => c.seq = seq ∧ rs.length = 1 := by
  have hreceived : s'.received = s.received := h.received
  have hcount := count_answer hc h
  have hknown : (∀ r ∈ s'.responses, r.requestSeq ∈ s'.received) ↔ (rs = [] ∨ c.seq ∈ s.received) :=
    known_adds_iff (s := take s i) hs.known h
  cases howner : c.owner with
  | none =>
    simp only [howner, reduceCtorEq, if_false, Nat.add_zero] at hcount
    constructor
    · intro hlawful
      rcases hknown.mp hlawful.known with hnil | hseq
      · exact hnil
      · have hone := hlawful.once c.seq (hreceived ▸ hseq)
        rw [hcount, hs.once c.seq hseq, if_pos rfl] at hone
        exact List.length_eq_zero_iff.mp (by omega)
    · rintro rfl
      refine ⟨fun q hq => ?_,hknown.mpr (.inl rfl)⟩
      rw [hcount, hs.once q (hreceived ▸ hq)]
      simp
  | some seq =>
    have hseq : seq ∈ s.received := by
      have := hr c (List.mem_of_getElem? hc)
      rwa [howner] at this
    simp only [howner, Option.some.injEq] at hcount
    constructor
    · intro hlawful
      have hone := hcount seq
      rw [hlawful.once seq (hreceived ▸ hseq), hs.once seq hseq, if_pos rfl] at hone
      split at hone
      · rename_i heq
        exact ⟨heq,by omega⟩
      · omega
    · rintro ⟨heq,hlen⟩
      refine ⟨fun q hq => ?_,hknown.mpr (.inr (heq ▸ hseq))⟩
      have hone := hcount q
      rw [hs.once q (hreceived ▸ hq), heq, hlen] at hone
      omega

def Same (s s' : State) : Prop :=
  s'.received = s.received ∧ s'.responses = s.responses ∧ s'.commands = s.commands

end Vecoda.Responses

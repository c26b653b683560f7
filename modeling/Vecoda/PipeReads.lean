import Vecoda.Channel

/-!
# Reads of a message pipe and their completion

A read of the message-mode pipe finds its message queued and completes at once,
or is left pending and completes while the thread waits. `Channel::Read` in the
backend and in the launcher, and the launcher's background `NReadUInt32`, look
at the number of bytes on the second branch only.
-/

set_option autoImplicit false

namespace Vecoda.PipeReads
open MessagePipe

structure Transfer where
  data : Bytes
  more : Bool
  deriving DecidableEq, Repr

/-- The remainder of a longer message is the next message; there is no transfer from a pipe whose
other end is closed. -/
def transfer (length : ℕ) : List Bytes → Option (Transfer × List Bytes)
  | [] => none
  | m::rest =>
    some (⟨m.take length,length < m.length⟩,if length < m.length then m.drop length::rest else rest)

inductive Wake where
  /-- The read has completed; `m_doneEvent` is set as well or not. -/
  | read (done : Bool)
  /-- Only `m_doneEvent` is set, which the wait resets; the read completes before its result is
  asked for or not. -/
  | done (completed : Bool)
  deriving DecidableEq, Repr

inductive Completion where
  | synchronous
  | pending (wake : Wake)
  deriving DecidableEq, Repr

/-- The result, the bytes that reached the buffer, whether the system reported a failure or the
channel was found closed, and the pipe after it. -/
structure Outcome where
  result : Bool
  data : Bytes
  failed : Bool
  pipe : List Bytes
  deriving DecidableEq, Repr

def overlapped (length : ℕ) (c : Completion) (pipe : List Bytes) : Outcome :=
  match c with
  | .synchronous =>
    match transfer length pipe with
    | none => ⟨false,[],true,pipe⟩
    | some (t,rest) => ⟨!t.more,t.data,t.more,rest⟩
  | .pending (.read true) =>
    match transfer length pipe with
    | none => ⟨false,[],true,pipe⟩
    | some (t,rest) => ⟨false,t.data,true,rest⟩
  | .pending (.done false) => ⟨false,[],true,pipe⟩
  | .pending _ =>
    match transfer length pipe with
    | none => ⟨false,[],true,pipe⟩
    | some (t,rest) => ⟨!t.more && t.data.length == length,t.data,t.more,rest⟩

/-- `Channel::Read` of the backend: reading nothing takes no message. -/
def backendRead (length : ℕ) (c : Completion) (pipe : List Bytes) : Outcome :=
  if length = 0 then ⟨true,[],false,pipe⟩ else overlapped length c pipe

def launcherRead (length : ℕ) (c : Completion) (pipe : List Bytes) : Outcome :=
  if length = 0 then ⟨true,[],false,pipe⟩ else overlapped length c pipe

def continueNReadUInt32 (m_value : ℕ) (c : Completion) (pipe : List Bytes) : Outcome × ℕ :=
  let o := overlapped 4 c pipe
  (o,if o.failed then 0xffffffff else
    ofLE (Channel.filled (fun i => (leBytes 4 m_value).getD i 0) 4 o.data))

/-- Where the thread is when `NReadUInt32` polls: still reading, between the assignment of
`m_nreadFinish` and that of `m_result`, or past both. -/
inductive Poll where
  | reading
  | between
  | finished
  deriving DecidableEq, Repr

/-- What `NReadUInt32` returns and the value it gives, from the `m_result` and the `m_value` of
before the thread. -/
def nReadUInt32 (poll : Poll) (m_result : Bool) (m_value : ℕ) (c : Completion) (pipe : List Bytes) :
    Bool × ℕ :=
  let (o,value) := continueNReadUInt32 m_value c pipe
  match poll with
  | .reading => (false,0)
  | .between => (m_result,value)
  | .finished => (o.result,value)

inductive Call where
  | backend (length : ℕ)
  | launcher (length : ℕ)
  | background (poll : Poll) (m_result : Bool) (m_value : ℕ)
  deriving DecidableEq, Repr

def Call.result (call : Call) (c : Completion) (pipe : List Bytes) : Bool :=
  match call with
  | .backend length => (backendRead length c pipe).result
  | .launcher length => (launcherRead length c pipe).result
  | .background poll m_result m_value => (nReadUInt32 poll m_result m_value c pipe).1

def Completion.Reported : Completion → Prop
  | .pending (.read true) => False
  | .pending (.done false) => False
  | _ => True

def Completion.Happens (c : Completion) : Prop := c ≠ .pending (.done false)

/-- The current message has exactly the bytes that are asked for, and they are delivered. -/
def Exactly (length : ℕ) (c : Completion) (pipe : List Bytes) : Prop :=
  c.Happens ∧ ∃ m ∈ pipe.head?, m.length = length

def Call.Delivered (call : Call) (c : Completion) (pipe : List Bytes) : Prop :=
  match call with
  | .backend length => length = 0 ∨ Exactly length c pipe
  | .launcher length => length = 0 ∨ Exactly length c pipe
  | .background .reading _ _ => False
  | .background _ _ _ => Exactly 4 c pipe

/-- The result tells whether the bytes were delivered, and another completion of the same read
gives the same result. -/
structure Call.Timeless (call : Call) (c : Completion) (pipe : List Bytes) : Prop where
  delivered : call.result c pipe = true ↔ call.Delivered c pipe
  same : c.Reported → ∀ c', c'.Reported → call.result c' pipe = call.result c pipe

/-- No message is shorter than asked for, and no whole one arrives on a channel that is found
closed. -/
def Undisturbed (length : ℕ) (c : Completion) (pipe : List Bytes) : Prop :=
  match c with
  | .pending (.read true) => ∀ m ∈ pipe.head?, m.length ≠ length
  | .pending (.done false) => True
  | _ => ∀ m ∈ pipe.head?, length ≤ m.length

def Call.Undisturbed (call : Call) (c : Completion) (pipe : List Bytes) : Prop :=
  match call with
  | .backend length => length = 0 ∨ PipeReads.Undisturbed length c pipe
  | .launcher length => length = 0 ∨ PipeReads.Undisturbed length c pipe
  | .background .reading _ _ => True
  | .background .between m_result _ => m_result = true ↔ Exactly 4 c pipe
  | .background .finished _ _ => PipeReads.Undisturbed 4 c pipe

section Reads

variable {length : ℕ} {c : Completion}

theorem overlapped_nil (length : ℕ) (c : Completion) : (overlapped length c []).result = false := by
  rcases c with _ | (_ | _) | (_ | _) <;> rfl

/-- A message that is found queued is accepted unless it is longer than the buffer. -/
theorem synchronous_result (length : ℕ) (m : Bytes) (rest : List Bytes) :
    (overlapped length .synchronous (m::rest)).result = true ↔ m.length ≤ length := by
  simp [overlapped, transfer]

/-- A message that was waited for is accepted if it fills the buffer exactly. -/
theorem pending_result (length : ℕ) (m : Bytes) (rest : List Bytes) (hc : c.Reported)
    (hs : c ≠ .synchronous) :
    (overlapped length c (m::rest)).result = true ↔ m.length = length := by
  have hresult : (overlapped length c (m::rest)).result =
      (!decide (length < m.length) && (m.take length).length == length) := by
    rcases c with _ | (_ | _) | (_ | _)
    · exact absurd rfl hs
    · rfl
    · cases hc
    · cases hc
    · rfl
  rw [hresult]
  simp only [List.length_take, Bool.and_eq_true, Bool.not_eq_true', decide_eq_false_iff_not,
    beq_iff_eq]
  omega

theorem closing_result (length : ℕ) (pipe : List Bytes) (hc : ¬ c.Reported) :
    (overlapped length c pipe).result = false := by
  rcases c with _ | (_ | _) | (_ | _)
  · exact absurd trivial hc
  · exact absurd trivial hc
  · cases pipe <;> rfl
  · rfl
  · exact absurd trivial hc

theorem exactly_cons (m : Bytes) (rest : List Bytes) :
    Exactly length c (m::rest) ↔ c.Happens ∧ m.length = length := by
  simp [Exactly]

theorem not_exactly_nil (length : ℕ) (c : Completion) : ¬ Exactly length c [] := by
  simp [Exactly]

theorem happens_of_reported (hc : c.Reported) : c.Happens := by
  rintro rfl
  exact hc

/-- What the two properties of a read say where a message is in front. -/
theorem overlapped_timeless_iff (length : ℕ) (c : Completion) (pipe : List Bytes) :
    (((overlapped length c pipe).result = true ↔ Exactly length c pipe) ∧
      (c.Reported → ∀ c', c'.Reported →
        (overlapped length c' pipe).result = (overlapped length c pipe).result)) ↔
      Undisturbed length c pipe := by
  cases pipe with
  | nil =>
    simp only [overlapped_nil, not_exactly_nil, Bool.false_eq_true, implies_true, and_true, true_iff]
    rcases c with _ | (_ | _) | (_ | _) <;> simp [Undisturbed]
  | cons m rest =>
    rw [exactly_cons]
    by_cases hc : c.Reported
    · have hund : Undisturbed length c (m::rest) ↔ length ≤ m.length := by
        rcases c with _ | (_ | _) | (_ | _)
        · simp [Undisturbed]
        · simp [Undisturbed]
        · cases hc
        · cases hc
        · simp [Undisturbed]
      rw [hund]
      have hqueued := synchronous_result length m rest
      have hwaited := pending_result (c := .pending (.read false)) length m rest trivial (by simp)
      constructor
      · rintro ⟨-,hsame⟩
        have heq := (hsame hc .synchronous trivial).trans (hsame hc (.pending (.read false)) trivial).symm
        rw [Bool.eq_iff_iff, hqueued, hwaited] at heq
        omega
      · intro hlong
        have hall (c' : Completion) (hc' : c'.Reported) :
            (overlapped length c' (m::rest)).result = true ↔ m.length = length := by
          by_cases hs : c' = .synchronous
          · subst hs
            rw [hqueued]
            omega
          · exact pending_result length m rest hc' hs
        refine ⟨(hall c hc).trans (and_iff_right (happens_of_reported hc)).symm,fun _ c' hc' => ?_⟩
        rw [Bool.eq_iff_iff, hall c hc, hall c' hc']
    · rw [closing_result length _ hc]
      simp only [Bool.false_eq_true, false_iff, hc, false_implies, and_true, not_and]
      rcases c with _ | (_ | _) | (_ | _)
      · exact absurd trivial hc
      · exact absurd trivial hc
      · simp [Completion.Happens, Undisturbed]
      · simp [Completion.Happens, Undisturbed]
      · exact absurd trivial hc

end Reads

/-- Reading nothing succeeds at once. -/
theorem read_timeless_iff (length : ℕ) (c : Completion) (pipe : List Bytes) :
    (Call.backend length).Timeless c pipe ↔ length = 0 ∨ Undisturbed length c pipe := by
  by_cases hz : length = 0
  · subst hz
    have hresult (c : Completion) : (Call.backend 0).result c pipe = true := rfl
    refine iff_of_true ⟨?_,fun _ c' _ => rfl⟩ (.inl rfl)
    exact iff_of_true (hresult c) (.inl rfl)
  · have hresult (c : Completion) : (Call.backend length).result c pipe = (overlapped length c pipe).result := by
      show (backendRead length c pipe).result = _
      rw [backendRead, if_neg hz]
    rw [or_iff_right hz, ← overlapped_timeless_iff]
    constructor
    · rintro ⟨hdelivered,hsame⟩
      simp only [hresult] at hdelivered hsame
      exact ⟨hdelivered.trans (or_iff_right hz),hsame⟩
    · rintro ⟨hdelivered,hsame⟩
      refine ⟨?_,?_⟩
      · rw [hresult]
        exact hdelivered.trans (or_iff_right hz).symm
      · simpa only [hresult] using hsame

theorem background_timeless_iff (poll : Poll) (m_result : Bool) (m_value : ℕ) (c : Completion)
    (pipe : List Bytes) : (Call.background poll m_result m_value).Timeless c pipe ↔
      (Call.background poll m_result m_value).Undisturbed c pipe := by
  cases poll with
  | reading => exact iff_of_true ⟨iff_of_false Bool.false_ne_true id,fun _ _ _ => rfl⟩ trivial
  | between => exact ⟨fun h => h.delivered,fun h => ⟨h,fun _ _ _ => rfl⟩⟩
  | finished =>
    refine Iff.trans ?_ (overlapped_timeless_iff 4 c pipe)
    exact ⟨fun h => ⟨h.delivered,h.same⟩,fun h => ⟨h.1,h.2⟩⟩

def completion (pending : Bool) : Completion := if pending then .pending (.read false) else .synchronous

/-- The reads of the channels between backend and adapter are these, where a message is there and
the channel is not being closed. -/
theorem channel_read_eq (τ : Channel.Timing) (length : ℕ) (hl : length ≠ 0) (port : Port) (m : Bytes)
    (rest : List Bytes) (hp : port.pipe = m::rest) :
    let o := backendRead length (completion (τ.pending port.reads)) port.pipe
    Channel.read τ length port =
      .ok (if o.result then some ⟨o.data,length < m.length,port.reads⟩ else none,
        ⟨o.pipe,port.taken ++ [o.data],port.reads+1⟩) := by
  have hreceive : receive length port = .ok (⟨m.take length,length < m.length,port.reads⟩,
      ⟨if length < m.length then m.drop length::rest else rest,port.taken ++ [m.take length],
        port.reads+1⟩) := by
    rw [receive, hp]
  rw [Channel.read, if_neg hl, bind_of_ok hreceive, backendRead, if_neg hl, hp]
  cases τ.pending port.reads with
  | true => rfl
  | false =>
    simp only [Bool.not_false, Bool.true_or, Bool.and_true]
    rfl

theorem timeless_iff (call : Call) (c : Completion) (pipe : List Bytes) :
    call.Timeless c pipe ↔ call.Undisturbed c pipe := by
  cases call with
  | backend length => exact read_timeless_iff length c pipe
  | launcher length =>
    -- the two copies of `Channel::Read` have the same lines
    refine Iff.trans ?_ (read_timeless_iff length c pipe)
    exact ⟨fun h => ⟨h.delivered,h.same⟩,fun h => ⟨h.delivered,h.same⟩⟩
  | background poll m_result m_value => exact background_timeless_iff poll m_result m_value c pipe

/-- The reads of a call do not depend on timing exactly where they are undisturbed; and those of the
channels between backend and adapter are such calls. -/
theorem call_timeless_iff (call : Call) (c : Completion) (pipe : List Bytes) :
    (call.Timeless c pipe ↔ call.Undisturbed c pipe) ∧
      ∀ (τ : Channel.Timing) (length : ℕ) (port : Port), length ≠ 0 → port.pipe ≠ [] → ∃ r port',
        Channel.read τ length port = .ok (r,port') ∧
          r.isSome = (Call.backend length).result (completion (τ.pending port.reads)) port.pipe := by
  refine ⟨timeless_iff call c pipe,fun τ length port hl hp => ?_⟩
  obtain ⟨m,rest,hm⟩ := List.exists_cons_of_ne_nil hp
  refine ⟨_,_,channel_read_eq τ length hl port m rest hm,?_⟩
  change _ = (backendRead length (completion (τ.pending port.reads)) port.pipe).result
  cases (backendRead length (completion (τ.pending port.reads)) port.pipe).result <;> rfl

/-- Two bytes are queued where a number of four is expected. -/
theorem short_message_not_timeless : ¬ (Call.backend 4).Timeless .synchronous [[1,2]] := by
  rw [read_timeless_iff]
  simp [Undisturbed]

end Vecoda.PipeReads

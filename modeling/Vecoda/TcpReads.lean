import Vecoda.MessagePipe
import Vecoda.Transitions

/-!
# Reads of the remote channel

`TcpChannel` of the launcher with its staging buffer of four bytes, the socket
mode that `NReadUInt32` switches, and `_nReadUInt32`, whose `value` is not
initialised. A run is a program of calls with what `recv` returned in each; the
bytes it returned, in their order, are the incoming stream.
-/

set_option autoImplicit false

namespace Vecoda.TcpReads
open MessagePipe Transitions

inductive Recv where
  | data (bs : Bytes)
  | wouldBlock
  | closed
  | failed
  deriving DecidableEq, Repr

inductive Piece where
  | value (n : ℕ)
  | buffer (bs : Bytes)
  deriving DecidableEq, Repr

def Piece.bytes : Piece → Bytes
  | .value n => leBytes 4 n
  | .buffer bs => bs

/-- `nreadBuffer` is its first `nreadCnt` bytes. The last five fields record the run: whether an
`NReadUInt32` has to be retried, what `recv` returned so far, whether the connection was closed
or an error occurred, what was delivered, and whether a poll told Lua of a disconnection. -/
structure State where
  connected : Bool
  nonBlocking : Bool
  nreadBuffer : Bytes
  pending : Bool
  stream : Bytes
  ended : Bool
  pieces : List Piece
  disconnected : Bool

def initial : State := ⟨true,false,[],false,[],false,[],false⟩

inductive Ending where
  | filled
  | wouldBlock
  | lost
  deriving DecidableEq, Repr

/-- The loop of `Read`, with the bytes it has received; there is no outcome for results that do
not fit the calls. Only a socket in non-blocking mode has nothing to return. -/
def readLoop (nonBlocking : Bool) (length : ℕ) (data : Bytes) : List Recv → Option (Bytes × Ending)
  | [] => if data.length < length then none else some (data,.filled)
  | r::rs =>
    if data.length < length then
      match r with
      | .data bs =>
        if bs ≠ [] ∧ data.length + bs.length ≤ length then readLoop nonBlocking length (data ++ bs) rs
        else none
      | .wouldBlock => if nonBlocking ∧ rs = [] then some (data,.wouldBlock) else none
      | .closed => if rs = [] then some (data,.lost) else none
      | .failed => if rs = [] then some (data,.lost) else none
    else none

inductive Label where
  /-- `Read` of some bytes. -/
  | read (length : ℕ) (rs : List Recv)
  /-- `_nReadUInt32`, with what the memory of its `value` held and the one `recv` of `NReadUInt32`. -/
  | poll (stale : UInt32) (r : Recv)
  /-- `Write`, of which a `send` fails or not. -/
  | write (failed : Bool)

section Calls

variable (s : State)

def disconnect : State := {s with connected := false}

def read (length : ℕ) (rs : List Recv) : Option State :=
  if !s.connected then some s
  else
    match readLoop s.nonBlocking length [] rs with
    | none => none
    | some (data,.filled) => some {s with stream := s.stream ++ data, pieces := s.pieces ++ [.buffer data]}
    | some (data,.wouldBlock) => some (disconnect {s with stream := s.stream ++ data})
    | some (data,.lost) => some (disconnect {s with stream := s.stream ++ data, ended := true})

def fails (value : UInt32) : State :=
  {s with pending := true, disconnected := s.disconnected || value == 0xffffffff}

/-- `NReadUInt32` sets the socket to non-blocking for its `recv`, and back to blocking after it: the
mode it means to restore is the 0 that it has just set. -/
def nReadUInt32 (stale : UInt32) (r : Recv) : Option State :=
  let s := {s with nonBlocking := false}
  match r with
  | .data bs =>
    let nreadBuffer := s.nreadBuffer ++ bs
    let s := {s with stream := s.stream ++ bs}
    if bs ≠ [] ∧ nreadBuffer.length ≤ 4 then
      if nreadBuffer.length = 4 then
        some {s with nreadBuffer := [], pending := false, pieces := s.pieces ++ [.value (ofLE nreadBuffer)]}
      else some (fails {s with nreadBuffer := nreadBuffer} stale)
    else none
  | .wouldBlock => some (fails s stale)
  | .closed => some (fails (disconnect {s with ended := true}) 0xffffffff)
  | .failed => some (fails (disconnect {s with ended := true}) 0xffffffff)

def poll (stale : UInt32) (r : Recv) : Option State :=
  if !s.connected then some (fails s 0xffffffff) else nReadUInt32 s stale r

def write (failed : Bool) : State :=
  if s.connected && failed then disconnect {s with ended := true} else s

/-- No other read is issued while an `NReadUInt32` is pending. -/
def step (s : State) : Label → Option State
  | .read length rs => if s.connected && s.pending then none else read s length rs
  | .poll stale r => poll s stale r
  | .write failed => some (write s failed)

def Step (s : State) (l : Label) (s' : State) : Prop := step s l = some s'

end Calls

def delivered (s : State) : Bytes := s.pieces.flatMap Piece.bytes

/-- What was delivered is a beginning of the stream, of which nothing is missing but what is staged
while the connection stands; and no disconnection is reported that did not occur. -/
structure Faithful (s : State) : Prop where
  consecutive : delivered s <+: s.stream
  complete : s.ended = false → delivered s ++ s.nreadBuffer = s.stream
  honest : s.disconnected = true → s.ended = true

def Incomplete (s : State) : Recv → Prop
  | .data bs => s.nreadBuffer.length + bs.length < 4
  | .wouldBlock => True
  | _ => False

/-- A poll that finds nothing, or a part of a number, does not find the mark of a disconnection in
the memory of `value`. -/
def Unmarked (s : State) : Label → Prop
  | .poll stale r => s.connected = true → Incomplete s r → stale ≠ 0xffffffff
  | _ => True

structure Invariant (s : State) : Prop extends Faithful s where
  connected : s.connected = !s.ended
  blocking : s.nonBlocking = false
  staged : s.nreadBuffer.length < 4
  kept : s.nreadBuffer ≠ [] → s.pending = true

theorem leBytes_ofLE (bs : Bytes) : leBytes bs.length (ofLE bs) = bs := by
  induction bs with
  | nil => rfl
  | cons b bs ih =>
    have hvalue : ofLE (b::bs) = b.toNat + 256 * ofLE bs := by
      simp [ofLE, Nat.ofDigits_cons]
    have hb := b.toNat_lt
    show UInt8.ofNat (ofLE (b::bs) % 256) :: leBytes bs.length (ofLE (b::bs) / 256) = b::bs
    rw [hvalue, Nat.add_mul_mod_self_left, Nat.mod_eq_of_lt hb, UInt8.ofNat_toNat,
      Nat.add_mul_div_left _ _ (by decide), Nat.div_eq_of_lt hb, Nat.zero_add, ih]

section Steps

variable {s s' : State}

/-- A socket in blocking mode does not report that it would block, and a loop that is not cut
short fills the buffer. -/
theorem readLoop_spec {length : ℕ} {data got : Bytes} {rs : List Recv} {ending : Ending}
    (h : readLoop false length data rs = some (got,ending)) (hd : data.length ≤ length) :
    ending ≠ .wouldBlock ∧ (ending = .filled → got.length = length) := by
  induction rs generalizing data with
  | nil =>
    simp only [readLoop] at h
    split at h
    · cases h
    · cases h
      exact ⟨(fun he => by cases he),fun _ => by omega⟩
  | cons r rs ih =>
    simp only [readLoop] at h
    split at h
    · cases r with
      | data bs =>
        obtain ⟨hfits,h⟩ := Option.ite_none_right_eq_some.mp h
        exact ih h (by rw [List.length_append]; exact hfits.2)
      | wouldBlock => simp at h
      | closed | failed =>
        obtain ⟨-,he⟩ := Option.ite_none_right_eq_some.mp h
        cases he
        exact ⟨(fun he => by cases he),(fun he => by cases he)⟩
    · cases h

theorem delivered_append (s : State) (p : Piece) (stream : Bytes) :
    delivered {s with stream := stream, pieces := s.pieces ++ [p]} = delivered s ++ p.bytes := by
  simp [delivered]

theorem invariant_read {length : ℕ} {rs : List Recv} (h : Invariant s) (hp : s.pending = false)
    (hs : read s length rs = some s') : Invariant s' := by
  have hempty : s.nreadBuffer = [] := by
    by_contra hne
    rw [h.kept hne] at hp
    cases hp
  cases hc : s.connected with
  | false =>
    rw [read, if_pos (by rw [hc]; rfl)] at hs
    cases hs
    exact h
  | true =>
    have hended : s.ended = false := by simpa [hc] using h.connected.symm
    have hall := h.complete hended
    rw [hempty, List.append_nil] at hall
    rw [read, if_neg (by simp [hc])] at hs
    cases hloop : readLoop s.nonBlocking length [] rs with
    | none => simp [hloop] at hs
    | some r =>
      obtain ⟨data,ending⟩ := r
      simp only [hloop] at hs
      rw [h.blocking] at hloop
      cases ending with
      | filled =>
        cases hs
        refine ⟨⟨?_,fun _ => ?_,h.honest⟩,h.connected,h.blocking,h.staged,h.kept⟩
        · rw [delivered_append, hall]
          exact List.prefix_rfl
        · rw [delivered_append, hall]
          simp [hempty, Piece.bytes]
      | wouldBlock => exact absurd rfl (readLoop_spec hloop (Nat.zero_le _)).1
      | lost =>
        cases hs
        refine ⟨⟨?_,(fun he => by cases he),fun _ => rfl⟩,rfl,h.blocking,h.staged,h.kept⟩
        show delivered s <+: s.stream ++ data
        rw [hall]
        exact List.prefix_append _ _

/-- The end of the connection, whatever is reported of it. -/
theorem invariant_ended (h : Invariant s) {nonBlocking : Bool} (hb : nonBlocking = false)
    (pending disconnected : Bool) (hk : s.nreadBuffer ≠ [] → pending = true) :
    Invariant {s with
      connected := false, ended := true, nonBlocking := nonBlocking, pending := pending,
      disconnected := disconnected} :=
  ⟨⟨h.consecutive,(fun he => by cases he),fun _ => rfl⟩,rfl,hb,h.staged,hk⟩

theorem invariant_poll {stale : UInt32} {r : Recv} (h : Invariant s) (hu : Unmarked s (.poll stale r))
    (hs : poll s stale r = some s') : Invariant s' := by
  cases hc : s.connected with
  | false =>
    have hended : s.ended = true := by simpa [hc] using h.connected.symm
    rw [poll, if_pos (by rw [hc]; rfl)] at hs
    cases hs
    exact ⟨⟨h.consecutive,h.complete,fun _ => hended⟩,h.connected,h.blocking,h.staged,fun _ => rfl⟩
  | true =>
    have hended : s.ended = false := by simpa [hc] using h.connected.symm
    have hall := h.complete hended
    have hstale (hi : Incomplete s r) : (s.disconnected || stale == 0xffffffff) = true → s.ended = true := by
      have hne := hu hc hi
      intro hd
      rw [Bool.or_eq_true, beq_iff_eq, or_iff_left hne] at hd
      exact h.honest hd
    rw [poll, if_neg (by simp [hc])] at hs
    cases r with
    | data bs =>
      simp only [nReadUInt32] at hs
      obtain ⟨hfits,hs⟩ := Option.ite_none_right_eq_some.mp hs
      by_cases hfull : (s.nreadBuffer ++ bs).length = 4
      · rw [if_pos hfull] at hs
        cases hs
        have hbytes : (Piece.value (ofLE (s.nreadBuffer ++ bs))).bytes = s.nreadBuffer ++ bs := by
          have hround := leBytes_ofLE (s.nreadBuffer ++ bs)
          rwa [hfull] at hround
        have hdelivered : (s.pieces ++ [Piece.value (ofLE (s.nreadBuffer ++ bs))]).flatMap Piece.bytes =
            s.stream ++ bs := by
          rw [List.flatMap_append, List.flatMap_singleton, hbytes, ← List.append_assoc]
          exact congrArg (· ++ bs) hall
        refine ⟨⟨?_,fun _ => ?_,h.honest⟩,h.connected,rfl,by simp,fun hne => absurd rfl hne⟩
        · exact hdelivered ▸ List.prefix_rfl
        · exact (List.append_nil _).trans hdelivered
      · rw [if_neg hfull] at hs
        cases hs
        have hshort : (s.nreadBuffer ++ bs).length < 4 := by omega
        refine ⟨⟨?_,fun _ => ?_,hstale ?_⟩,h.connected,rfl,hshort,fun _ => rfl⟩
        · exact h.consecutive.trans (List.prefix_append _ _)
        · show delivered s ++ (s.nreadBuffer ++ bs) = s.stream ++ bs
          rw [← List.append_assoc, hall]
        · rw [List.length_append] at hshort
          exact hshort
    | wouldBlock =>
      cases hs
      exact ⟨⟨h.consecutive,h.complete,hstale trivial⟩,h.connected,rfl,h.staged,fun _ => rfl⟩
    | closed | failed =>
      cases hs
      exact invariant_ended h rfl true _ (fun _ => rfl)

theorem invariant_step (s : State) (l : Label) (s' : State) (h : Invariant s) (hs : Step s l s')
    (hu : Unmarked s l) : Invariant s' := by
  cases l with
  | read length rs =>
    obtain ⟨hn,hs⟩ := Option.ite_none_left_eq_some.mp hs
    cases hp : s.pending with
    | false => exact invariant_read h hp hs
    | true =>
      -- only a read of a closed channel, which does nothing
      have hc : s.connected = false := by simpa [hp] using hn
      rw [read, if_pos (by rw [hc]; rfl)] at hs
      cases hs
      exact h
  | poll stale r => exact invariant_poll h hu hs
  | write failed =>
    cases hs
    rw [write]
    split
    · exact invariant_ended h h.blocking s.pending s.disconnected h.kept
    · exact h

/-- A marked poll reports a disconnection while the connection stands. -/
theorem marked_poll (s : State) (l : Label) (s' : State) (h : Invariant s) (hs : Step s l s')
    (hu : ¬ Unmarked s l) : ¬ Faithful s' := by
  cases l with
  | read length rs => exact absurd trivial hu
  | write failed => exact absurd trivial hu
  | poll stale r =>
    simp only [Unmarked, Classical.not_imp, not_not] at hu
    obtain ⟨hc,hi,rfl⟩ := hu
    have hended : s.ended = false := by simpa [hc] using h.connected.symm
    intro hf
    have hreport : s'.disconnected = true ∧ s'.ended = s.ended := by
      change poll s _ r = some s' at hs
      rw [poll, if_neg (by simp [hc])] at hs
      cases r with
      | data bs =>
        simp only [nReadUInt32] at hs
        obtain ⟨-,hs⟩ := Option.ite_none_right_eq_some.mp hs
        have hpart : ¬ (s.nreadBuffer ++ bs).length = 4 := by
          change s.nreadBuffer.length + bs.length < 4 at hi
          rw [List.length_append]
          omega
        rw [if_neg hpart] at hs
        cases hs
        exact ⟨Bool.or_true _,rfl⟩
      | wouldBlock =>
        cases hs
        exact ⟨Bool.or_true _,rfl⟩
      | closed | failed => exact hi.elim
    have := hf.honest hreport.1
    rw [hreport.2, hended] at this
    cases this

end Steps

theorem invariant_initial : Invariant initial :=
  ⟨⟨List.prefix_rfl,fun _ => rfl,(fun h => by cases h)⟩,rfl,rfl,by decide,fun h => absurd rfl h⟩

/-- In a run, what was delivered is what came in, and a disconnection is reported only after one,
exactly if no poll finds the mark of a disconnection where its value should go. -/
theorem faithful_along_iff (labels : List Label) :
    Along Step Faithful initial labels ↔ Meets Step Unmarked initial labels :=
  along_iff_meets (fun _ h => h.toFaithful) invariant_step marked_poll initial labels invariant_initial

/-- Nothing has arrived yet, and the memory of `value` holds the number read before. -/
theorem idle_poll_not_faithful : ¬ Along Step Faithful initial [.poll 0xffffffff .wouldBlock] := by
  intro h
  have hfaithful := h.2 (fails {initial with nonBlocking := false} 0xffffffff) rfl
  exact absurd (hfaithful.honest rfl) Bool.false_ne_true

end Vecoda.TcpReads
